import Mathlib.Data.Nat.Notation
import Mathlib.Data.Int.Notation
import Mathlib.Tactic.Common

/-! Characters, and the decimal literals of integers, as Python has them. -/
namespace Python

/-- `str.isspace` of a single character. -/
def isSpace (c : Char) : Bool :=
  let n := c.toNat
  (9 ≤ n && n ≤ 13) || (28 ≤ n && n ≤ 32) || n == 0x85 || n == 0xa0 || n == 0x1680 ||
    (0x2000 ≤ n && n ≤ 0x200a) || n == 0x2028 || n == 0x2029 || n == 0x202f || n == 0x205f ||
    n == 0x3000

def stripChars (blank : Char → Bool) (text : List Char) : List Char :=
  ((text.dropWhile blank).reverse.dropWhile blank).reverse

/-- `str.strip`. -/
def strip (text : String) : String := String.ofList (stripChars isSpace text.toList)

/-- The zeros among the decimal digits of Unicode that are not ASCII. After a zero come the other
nine digits. -/
def otherZeros : List ℕ :=
  [0x660, 0x6f0, 0x7c0, 0x966, 0x9e6, 0xa66, 0xae6, 0xb66, 0xbe6, 0xc66, 0xce6, 0xd66, 0xde6,
    0xe50, 0xed0, 0xf20, 0x1040, 0x1090, 0x17e0, 0x1810, 0x1946, 0x19d0, 0x1a80, 0x1a90, 0x1b50,
    0x1bb0, 0x1c40, 0x1c50, 0xa620, 0xa8d0, 0xa900, 0xa9d0, 0xa9f0, 0xaa50, 0xabf0, 0xff10, 0x104a0,
    0x10d30, 0x11066, 0x110f0, 0x11136, 0x111d0, 0x112f0, 0x11450, 0x114d0, 0x11650, 0x116c0,
    0x11730, 0x118e0, 0x11950, 0x11c50, 0x11d50, 0x11da0, 0x11f50, 0x16a60, 0x16ac0, 0x16b50,
    0x1d7ce, 0x1d7d8, 0x1d7e2, 0x1d7ec, 0x1d7f6, 0x1e140, 0x1e2f0, 0x1e4f0, 0x1e950, 0x1fbf0]

/-- `unicodedata.decimal`. -/
def decimal? (c : Char) : Option ℕ :=
  (('0'.toNat :: otherZeros).find? fun first => first ≤ c.toNat && c.toNat < first + 10).map
    (c.toNat - ·)

theorem decimal?_of_isDigit {c : Char} (h : c.isDigit = true) : decimal? c = some (c.toNat - '0'.toNat) := by
  have hrange : '0'.toNat ≤ c.toNat ∧ c.toNat ≤ '9'.toNat := by
    simpa [Char.isDigit, UInt32.le_iff_toNat_le] using h
  have hzero : ('0'.toNat ≤ c.toNat && c.toNat < '0'.toNat + 10) = true := by
    simp only [Char.reduceToNat] at hrange ⊢
    rw [Bool.and_eq_true, decide_eq_true_eq, decide_eq_true_eq]
    omega
  unfold decimal?
  rw [List.find?_cons, hzero]
  rfl

/-- What `int` strips; it keeps the separators of ASCII. -/
def isBlank (c : Char) : Bool := isSpace c && !(28 ≤ c.toNat && c.toNat ≤ 31)

/-- Digits with single underscores between them. The flag says whether a digit came last. -/
def intDigits : Bool → ℕ → List Char → Option ℕ
  | afterDigit, value, [] => if afterDigit then some value else none
  | afterDigit, value, c :: rest =>
    match decimal? c with
    | some digit => intDigits true (10 * value + digit) rest
    | none => if c = '_' ∧ afterDigit = true then intDigits false value rest else none

/-- `sys.get_int_max_str_digits()`. -/
def maxStrDigits : ℕ := 4300

/-- The text of the number is not too long. -/
def Short (n : ℕ) : Prop := (Nat.toDigits 10 n).length ≤ maxStrDigits

instance (n : ℕ) : Decidable (Short n) := inferInstanceAs (Decidable (_ ≤ _))

def intOfDigits (digits : List Char) : Option ℕ :=
  if (digits.filter fun c => (decimal? c).isSome).length ≤ maxStrDigits then intDigits false 0 digits
  else none

/-- Is there a minus, and what comes after the sign. -/
def splitSign : List Char → Bool × List Char
  | '-' :: digits => (true, digits)
  | '+' :: digits => (false, digits)
  | digits => (false, digits)

def signed (negative : Bool) (n : ℕ) : ℤ := if negative then -(n : ℤ) else n

/-- `int` of a text, or nothing where it raises. -/
def int? (text : String) : Option ℤ :=
  let (negative, digits) := splitSign (stripChars isBlank text.toList)
  (intOfDigits digits).map (signed negative)

theorem isDigit_of_mem {n : ℕ} {c : Char} (h : c ∈ Nat.toDigits 10 n) : c.isDigit = true :=
  Nat.isDigit_of_mem_toDigits (by decide) (by decide) h

theorem intDigits_eq {digits : List Char} (h : ∀ c ∈ digits, c.isDigit = true) (value : ℕ) :
    intDigits true value digits = some (Nat.ofDigitChars 10 digits value) := by
  induction digits generalizing value with
  | nil => simp [intDigits]
  | cons c rest ih =>
    rw [List.forall_mem_cons] at h
    unfold intDigits
    rw [decimal?_of_isDigit h.1, Nat.ofDigitChars_cons]
    exact ih h.2 _

theorem intDigits_toDigits (n : ℕ) : intDigits false 0 (Nat.toDigits 10 n) = some n := by
  have hdigits : ∀ c ∈ Nat.toDigits 10 n, c.isDigit = true := fun c hc => isDigit_of_mem hc
  have hvalue := Nat.ofDigitChars_toDigits (b := 10) (n := n) (by decide) (by decide)
  cases hlist : Nat.toDigits 10 n with
  | nil => exact absurd hlist Nat.toDigits_ne_nil
  | cons c rest =>
    rw [hlist, List.forall_mem_cons] at hdigits
    rw [hlist, Nat.ofDigitChars_cons] at hvalue
    unfold intDigits
    rw [decimal?_of_isDigit hdigits.1, ← hvalue]
    exact intDigits_eq hdigits.2 _

theorem not_blank_of_isDigit {c : Char} (h : c.isDigit = true) : isBlank c = false := by
  have hrange : '0'.toNat ≤ c.toNat ∧ c.toNat ≤ '9'.toNat := by
    simpa [Char.isDigit, UInt32.le_iff_toNat_le] using h
  simp only [Char.reduceToNat] at hrange
  unfold isBlank isSpace
  simp
  omega

/-- Nothing is stripped of a text that neither begins nor ends with a blank. -/
theorem stripChars_eq {blank : Char → Bool} {text : List Char} (h : ∀ c ∈ text, blank c = false) :
    stripChars blank text = text := by
  have hdrop : ∀ {l : List Char}, (∀ c ∈ l, blank c = false) → l.dropWhile blank = l := by
    intro l hl
    cases l with
    | nil => rfl
    | cons c rest => simp [hl c List.mem_cons_self]
  unfold stripChars
  rw [hdrop h, hdrop fun c hc => h c (List.mem_reverse.mp hc), List.reverse_reverse]

theorem intOfDigits_toDigits {n : ℕ} (h : Short n) : intOfDigits (Nat.toDigits 10 n) = some n := by
  have hfew : ((Nat.toDigits 10 n).filter fun c => (decimal? c).isSome).length ≤ maxStrDigits :=
    Nat.le_trans (List.length_filter_le _ _) h
  unfold intOfDigits
  rw [if_pos hfew]
  exact intDigits_toDigits n

theorem splitSign_toDigits (n : ℕ) :
    splitSign (Nat.toDigits 10 n) = (false, Nat.toDigits 10 n) := by
  cases hlist : Nat.toDigits 10 n with
  | nil => exact absurd hlist Nat.toDigits_ne_nil
  | cons c rest =>
    have hdigit : c.isDigit = true := by
      apply isDigit_of_mem
      rw [hlist]
      exact List.mem_cons_self
    unfold splitSign
    split
    · rename_i heq
      obtain ⟨rfl, -⟩ := List.cons.inj heq
      cases hdigit
    · rename_i heq
      obtain ⟨rfl, -⟩ := List.cons.inj heq
      cases hdigit
    · rfl

/-- `int(str(n))`. -/
theorem int?_toString {n : ℤ} (h : Short n.natAbs) : int? (toString n) = some n := by
  have hblank : ∀ c ∈ Nat.toDigits 10 n.natAbs, isBlank c = false :=
    fun c hc => not_blank_of_isDigit (isDigit_of_mem hc)
  have hvalue := intOfDigits_toDigits h
  cases n with
  | ofNat m =>
    have htext : (toString (Int.ofNat m)).toList = Nat.toDigits 10 m := Nat.toList_repr
    have hstrip : stripChars isBlank (Nat.toDigits 10 m) = Nat.toDigits 10 m := stripChars_eq hblank
    have hdigits : intOfDigits (Nat.toDigits 10 m) = some m := hvalue
    unfold int?
    rw [htext, hstrip, splitSign_toDigits]
    show (intOfDigits (Nat.toDigits 10 m)).map (signed false) = _
    rw [hdigits]
    rfl
  | negSucc m =>
    have htext : (toString (Int.negSucc m)).toList = '-' :: Nat.toDigits 10 (m + 1) := by
      show ("-" ++ (m + 1).repr).toList = _
      rw [String.toList_append, Nat.toList_repr]
      rfl
    have hall : ∀ c ∈ '-' :: Nat.toDigits 10 (m + 1), isBlank c = false :=
      List.forall_mem_cons.mpr ⟨by decide, hblank⟩
    have hdigits : intOfDigits (Nat.toDigits 10 (m + 1)) = some (m + 1) := hvalue
    unfold int?
    rw [htext, stripChars_eq hall]
    show (intOfDigits (Nat.toDigits 10 (m + 1))).map (signed true) = _
    rw [hdigits]
    rfl

end Python
