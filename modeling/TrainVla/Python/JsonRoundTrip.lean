import TrainVla.Python.JsonText

/-! What `json.dumps` writes is read again by `json.loads`. -/
namespace Python.JsonText

variable {F α : Type}

section Strings

theorem hexDigit?_digitChar {d : ℕ} (h : d < 16) : hexDigit? (Nat.digitChar d) = some d := by
  have hall : ∀ d < 16, hexDigit? (Nat.digitChar d) = some d := by decide
  exact hall d h

theorem scanHex4_hex4 {n : ℕ} (h : n < 0x10000) (s : List Char) :
    scanHex4 (hex4 n ++ s) = some (n, s) := by
  have hlt : ∀ m : ℕ, m % 16 < 16 := fun m => Nat.mod_lt m (by decide)
  have hvalue : 4096 * (n / 4096 % 16) + 256 * (n / 256 % 16) + 16 * (n / 16 % 16) + n % 16 = n := by
    omega
  simp only [hex4, List.cons_append, List.nil_append, scanHex4, hexDigit?_digitChar (hlt _),
    Option.bind_eq_bind, Option.bind_some, hvalue]

theorem scanUnicode_hex4 {c : Char} (h : c.toNat < 0x10000) (s : List Char) :
    scanUnicode (hex4 c.toNat ++ s) = some (c, s) := by
  have hvalid : c.toNat < 0xd800 ∨ 0xdfff < c.toNat ∧ c.toNat < 0x110000 := c.valid
  have hhigh : ¬ isHigh c.toNat := by
    unfold isHigh
    omega
  have hlow : ¬ isLow c.toNat := by
    unfold isLow
    omega
  unfold scanUnicode
  rw [scanHex4_hex4 h]
  simp [hhigh, hlow]

theorem scanLow_unicodeEscape {low : ℕ} (h : isLow low) (s : List Char) :
    scanLow (unicodeEscape low ++ s) = some (low, s) := by
  have hlt : low < 0x10000 := Nat.lt_trans h.2 (by decide)
  unfold unicodeEscape
  rw [List.cons_append, List.cons_append, scanLow, scanHex4_hex4 hlt]
  simp only [Option.bind_eq_bind, Option.bind_some, if_pos h]

theorem scanUnicode_pair {high low : ℕ} {c : Char} (hhigh : isHigh high) (hlow : isLow low)
    (hvalue : 0x10000 + (high - 0xd800) * 0x400 + (low - 0xdc00) = c.toNat) (s : List Char) :
    scanUnicode (hex4 high ++ (unicodeEscape low ++ s)) = some (c, s) := by
  have hlt : high < 0x10000 := Nat.lt_trans hhigh.2 (by decide)
  unfold scanUnicode
  rw [scanHex4_hex4 hlt]
  simp only [Option.bind_eq_bind, Option.bind_some, if_pos hhigh]
  rw [scanLow_unicodeEscape hlow, Option.bind_some]
  rw [hvalue, Char.ofNat_toNat]

/-- A character beyond the first plane, as a pair. -/
theorem pair_value {n : ℕ} (h : ¬ n < 0x10000) (hn : n < 0x110000) :
    isHigh (0xd800 + (n - 0x10000) / 0x400) ∧ isLow (0xdc00 + (n - 0x10000) % 0x400) ∧
      0x10000 + (0xd800 + (n - 0x10000) / 0x400 - 0xd800) * 0x400 +
        (0xdc00 + (n - 0x10000) % 0x400 - 0xdc00) = n := by
  unfold isHigh isLow
  omega

/-- What follows a backslash is read again. -/
theorem scanEscape_escape {c : Char}
    (h : shortEscapes.lookup c ≠ none ∨ ¬ (32 ≤ c.toNat ∧ c.toNat ≤ 126)) :
    ∃ e, escape c = '\\' :: e ∧ ∀ s, scanEscape (e ++ s) = some (c, s) := by
  cases hlookup : shortEscapes.lookup c with
  | some e =>
    have hall : ∀ p ∈ shortEscapes, p.2 ≠ 'u' ∧ unescapes.lookup p.2 = some p.1 := by decide
    have hmem : (c, e) ∈ shortEscapes := by
      obtain ⟨before, after, hsplit, -⟩ := List.lookup_eq_some_iff.mp hlookup
      rw [hsplit]
      simp
    obtain ⟨hu, hback⟩ := hall _ hmem
    refine ⟨[e], ?_, fun s => ?_⟩
    · unfold escape
      rw [hlookup]
    · rw [List.singleton_append, scanEscape, if_neg hu, hback]
      rfl
  | none =>
    have hprint := h.resolve_left (absurd hlookup)
    by_cases hplane : c.toNat < 0x10000
    · refine ⟨'u' :: hex4 c.toNat, ?_, fun s => ?_⟩
      · unfold escape
        rw [hlookup]
        simp only [if_neg hprint, if_pos hplane, unicodeEscape]
      · rw [List.cons_append, scanEscape, if_pos rfl]
        exact scanUnicode_hex4 hplane s
    · refine ⟨'u' :: (hex4 (0xd800 + (c.toNat - 0x10000) / 0x400) ++
        unicodeEscape (0xdc00 + (c.toNat - 0x10000) % 0x400)), ?_, fun s => ?_⟩
      · unfold escape
        rw [hlookup]
        simp only [if_neg hprint, if_neg hplane]
        rfl
      · rw [List.cons_append, List.append_assoc, scanEscape, if_pos rfl]
        have hvalid : c.toNat < 0xd800 ∨ 0xdfff < c.toNat ∧ c.toNat < 0x110000 := c.valid
        obtain ⟨hhigh, hlow, hvalue⟩ := pair_value hplane (by omega)
        exact scanUnicode_pair hhigh hlow hvalue s

theorem escape_plain {c : Char} (h : shortEscapes.lookup c = none)
    (hc : 32 ≤ c.toNat ∧ c.toNat ≤ 126) : escape c = [c] ∧ c ≠ '"' ∧ c ≠ '\\' := by
  refine ⟨?_, ?_, ?_⟩
  · unfold escape
    rw [h]
    simp [hc]
  · rintro rfl
    cases h
  · rintro rfl
    cases h

theorem scanString_escape (fuel : ℕ) (c : Char) (s : List Char) :
    scanString (fuel + 1) (escape c ++ s) =
      (scanString fuel s).map fun (cs, s) => (c :: cs, s) := by
  by_cases h : shortEscapes.lookup c ≠ none ∨ ¬ (32 ≤ c.toNat ∧ c.toNat ≤ 126)
  · obtain ⟨e, he, hscan⟩ := scanEscape_escape h
    have hquote : ¬ '\\' = '"' := by decide
    rw [he, List.cons_append, scanString, if_neg hquote, if_pos rfl, hscan]
    cases hrest : scanString fuel s <;> simp [hrest]
  · rw [not_or, not_not, not_not] at h
    obtain ⟨hescape, hquote, hbackslash⟩ := escape_plain h.1 h.2
    have hcontrol : ¬ c.toNat < 32 := by omega
    rw [hescape, List.singleton_append, scanString, if_neg hquote, if_neg hbackslash,
      if_neg hcontrol]
    cases hrest : scanString fuel s <;> simp [hrest]

theorem scanString_flatMap {fuel : ℕ} {cs : List Char} (h : cs.length < fuel) (s : List Char) :
    scanString fuel (cs.flatMap escape ++ '"' :: s) = some (cs, s) := by
  induction cs generalizing fuel with
  | nil =>
    cases fuel with
    | zero => cases h
    | succ fuel => simp [scanString]
  | cons c cs ih =>
    cases fuel with
    | zero => cases h
    | succ fuel =>
      have hless : cs.length < fuel := by simpa using h
      have hrest := ih hless
      rw [List.flatMap_cons, List.append_assoc, scanString_escape, hrest]
      rfl

theorem length_flatMap_escape (cs : List Char) : cs.length ≤ (cs.flatMap escape).length := by
  induction cs with
  | nil => exact Nat.le_refl 0
  | cons c cs ih =>
    have hne : escape c ≠ [] := by
      by_cases h : shortEscapes.lookup c ≠ none ∨ ¬ (32 ≤ c.toNat ∧ c.toNat ≤ 126)
      · obtain ⟨e, he, -⟩ := scanEscape_escape h
        simp [he]
      · rw [not_or, not_not, not_not] at h
        simp [(escape_plain h.1 h.2).1]
    have hpos := List.length_pos_iff.mpr hne
    rw [List.flatMap_cons, List.length_append, List.length_cons]
    omega

/-- A quoted text after its opening quote, with as much fuel as there is text. -/
theorem scanString_quote (cs s : List Char) :
    scanString ((cs.flatMap escape ++ '"' :: s).length + 1) (cs.flatMap escape ++ '"' :: s) =
      some (cs, s) := by
  apply scanString_flatMap
  have hlength := length_flatMap_escape cs
  rw [List.length_append]
  omega

end Strings

section Numbers

/-- What may follow a value. -/
def Ends (rest : List Char) : Prop := ∀ c ∈ rest.head?, c = ',' ∨ c = ']' ∨ c = '}'

theorem ends_nil : Ends [] := fun _ h => by cases h

theorem ends_cons {c : Char} (h : c = ',' ∨ c = ']' ∨ c = '}') (rest : List Char) :
    Ends (c :: rest) := by
  intro c' hc'
  rwa [← Option.some.inj hc']

/-- The digits end where something else begins. -/
theorem span_digits {digits rest : List Char} (h : ∀ c ∈ digits, c.isDigit = true)
    (hrest : ∀ c ∈ rest.head?, c.isDigit = false) :
    (digits ++ rest).takeWhile Char.isDigit = digits ∧
      (digits ++ rest).dropWhile Char.isDigit = rest := by
  rw [List.takeWhile_append_of_pos h, List.dropWhile_append_of_pos h]
  cases rest with
  | nil => simp
  | cons c rest =>
    have hc := hrest c rfl
    simp [hc]

theorem Ends.not_isDigit {rest : List Char} (h : Ends rest) :
    ∀ c ∈ rest.head?, c.isDigit = false := by
  intro c hc
  rcases h c hc with rfl | rfl | rfl <;> decide

theorem head?_toDigits_append (n : ℕ) (rest : List Char) :
    (Nat.toDigits 10 n ++ rest).head? = (Nat.toDigits 10 n).head? := by
  cases h : Nat.toDigits 10 n with
  | nil => exact absurd h Nat.toDigits_ne_nil
  | cons c digits => rfl

theorem head?_toDigits {n : ℕ} (h : 0 < n) : (Nat.toDigits 10 n).head? ≠ some '0' := by
  have hbase : (1 : ℕ) < 10 := by decide
  induction n using Nat.base_induction 10 hbase with
  | single m hm =>
    have hall : ∀ m < 10, 0 < m → Nat.digitChar m ≠ '0' := by decide
    rw [Nat.toDigits_of_lt_base hm]
    intro heq
    exact hall m hm h (Option.some.inj heq)
  | digit m k hk hm ih =>
    rw [← Nat.toDigits_append_toDigits hbase hm hk, head?_toDigits_append]
    exact ih hm

theorem scanWhole_toDigits (n : ℕ) {rest : List Char}
    (hrest : ∀ c ∈ rest.head?, c.isDigit = false) :
    scanWhole (Nat.toDigits 10 n ++ rest) = some (Nat.toDigits 10 n, rest) := by
  have hdigits : ∀ c ∈ Nat.toDigits 10 n, c.isDigit = true := fun c hc => isDigit_of_mem hc
  obtain ⟨htake, hdrop⟩ := span_digits hdigits hrest
  unfold scanWhole
  rcases Nat.eq_zero_or_pos n with rfl | hpos
  · rfl
  · have hhead : (Nat.toDigits 10 n ++ rest).head? ≠ some '0' := by
      rw [head?_toDigits_append]
      exact head?_toDigits hpos
    have hne : (Nat.toDigits 10 n).isEmpty = false := by
      rw [List.isEmpty_eq_false_iff]
      exact Nat.toDigits_ne_nil
    rw [if_neg hhead, htake, hdrop, hne]
    rfl

theorem scanFraction_fractionText {digits rest : List Char}
    (h : ∀ c ∈ digits, c.isDigit = true) (hrest : ∀ c ∈ rest.head?, c.isDigit = false ∧ c ≠ '.') :
    scanFraction (fractionText digits ++ rest) = (digits, rest) := by
  unfold fractionText scanFraction
  by_cases hnil : digits = []
  · rw [if_pos hnil, List.nil_append, hnil, if_neg]
    rintro ⟨hhead, -⟩
    exact (hrest '.' hhead).2 rfl
  · obtain ⟨htake, hdrop⟩ := span_digits h fun c hc => (hrest c hc).1
    rw [if_neg hnil, List.cons_append, List.head?_cons, List.tail_cons, htake, hdrop,
      if_pos ⟨rfl, hnil⟩]

theorem scanExponent_exponentText {exponent : Option (Bool × List Char)} {rest : List Char}
    (h : ∀ e ∈ exponent, e.2 ≠ [] ∧ ∀ c ∈ e.2, c.isDigit = true) (hrest : Ends rest) :
    scanExponent (exponentText exponent ++ rest) = (exponentText exponent, rest) := by
  cases exponent with
  | none =>
    cases rest with
    | nil => rfl
    | cons c rest =>
      have hc : ¬ (c = 'e' ∨ c = 'E') := by
        rcases hrest c rfl with rfl | rfl | rfl <;> decide
      show scanExponent (c :: rest) = ([], c :: rest)
      unfold scanExponent
      simp [hc]
  | some e =>
    obtain ⟨negative, digits⟩ := e
    obtain ⟨hne, hdigits⟩ := h _ rfl
    obtain ⟨htake, hdrop⟩ := span_digits hdigits hrest.not_isDigit
    cases negative with
    | true => simp [scanExponent, exponentText, scanSign, htake, hdrop, hne]
    | false => simp [scanExponent, exponentText, scanSign, htake, hdrop, hne]

theorem scanMinus_minusText (negative : Bool) (n : ℕ) (rest : List Char) :
    scanMinus (minusText negative ++ (Nat.toDigits 10 n ++ rest)) =
      (negative, Nat.toDigits 10 n ++ rest) := by
  cases negative with
  | true => rfl
  | false =>
    cases h : Nat.toDigits 10 n with
    | nil => exact absurd h Nat.toDigits_ne_nil
    | cons c digits =>
      have hdigit : c.isDigit = true := by
        apply isDigit_of_mem (n := n)
        rw [h]
        exact List.mem_cons_self
      have hminus : c ≠ '-' := by
        rintro rfl
        cases hdigit
      show scanMinus (c :: (digits ++ rest)) = (false, c :: (digits ++ rest))
      unfold scanMinus
      split
      · rename_i heq
        exact absurd (List.cons.inj heq).1 hminus
      · rfl

variable {P : Floats F}

theorem scanNumber_intText {n : ℤ} (h : Short n.natAbs) {rest : List Char}
    (hrest : Ends rest) : scanNumber P (intText n ++ rest) = some (.int n, rest) := by
  have hfraction : scanFraction rest = ([], rest) := by
    have hempty : fractionText [] ++ rest = rest := rfl
    rw [← hempty]
    apply scanFraction_fractionText fun c hc => absurd hc List.not_mem_nil
    intro c hc
    refine ⟨hrest.not_isDigit c hc, ?_⟩
    rcases hrest c hc with rfl | rfl | rfl <;> decide
  have hexponent : scanExponent rest = ([], rest) := by
    have hempty : exponentText none ++ rest = rest := rfl
    rw [← hempty]
    exact scanExponent_exponentText (fun e he => by cases he) hrest
  have hsigned : signed (decide (n < 0)) n.natAbs = n := by
    unfold signed
    split
    · rename_i hneg
      have hneg := of_decide_eq_true hneg
      omega
    · rename_i hneg
      have hneg := of_decide_eq_false (Bool.eq_false_iff.mpr hneg)
      omega
  unfold scanNumber intText
  rw [List.append_assoc, scanMinus_minusText]
  simp only [scanWhole_toDigits _ hrest.not_isDigit, Option.bind_eq_bind, Option.bind_some,
    hfraction, hexponent, and_self, if_true, intOfDigits_toDigits h, Option.map_some, hsigned]

theorem scanNumber_literal (l : FloatLiteral) {rest : List Char} (hrest : Ends rest) :
    scanNumber P (l.text ++ rest) = some (.float (P.float l.text), rest) := by
  have hexponent := scanExponent_exponentText l.exponent_digits hrest
  have hhead : ∀ c ∈ (exponentText l.exponent ++ rest).head?, c.isDigit = false ∧ c ≠ '.' := by
    cases l.exponent with
    | none =>
      intro c hc
      refine ⟨hrest.not_isDigit c hc, ?_⟩
      rcases hrest c hc with rfl | rfl | rfl <;> decide
    | some e =>
      intro c hc
      obtain rfl := Option.some.inj hc
      decide
  have hfraction := scanFraction_fractionText l.fraction_digits hhead
  have hdot : ∀ c ∈ (fractionText l.fraction ++ (exponentText l.exponent ++ rest)).head?,
      c.isDigit = false := by
    unfold fractionText
    split
    · exact fun c hc => (hhead c hc).1
    · intro c hc
      obtain rfl := Option.some.inj hc
      decide
  have hfloat : ¬ (l.fraction = [] ∧ exponentText l.exponent = []) := by
    rintro ⟨hnofraction, hnoexponent⟩
    rcases l.not_int with h | h
    · exact h hnofraction
    · cases hexp : l.exponent with
      | none => exact h hexp
      | some e =>
        rw [hexp] at hnoexponent
        cases hnoexponent
  unfold scanNumber FloatLiteral.text
  simp only [List.append_assoc]
  rw [scanMinus_minusText]
  simp only [scanWhole_toDigits _ hdot, Option.bind_eq_bind, Option.bind_some, hfraction, hexponent,
    if_neg hfloat]

end Numbers

/-- The text of the number is read as that number. -/
inductive Floats.Reads (P : Floats F) : F → Prop
  | nan (h : P.repr P.nan = ['N', 'a', 'N']) : Reads P P.nan
  | infinity (negative : Bool) (h : P.repr (P.infinity negative) =
      minusText negative ++ ['I', 'n', 'f', 'i', 'n', 'i', 't', 'y']) : Reads P (P.infinity negative)
  | literal {x : F} (l : FloatLiteral) (h : P.repr x = l.text) (hx : P.float l.text = x) : Reads P x

/-- What `json.dumps` can be given for reading it back: keys that differ, as those of a dictionary
do, and integers whose texts are not too long. -/
inductive Value.Sound (P : Floats F) : Value F → Prop
  | null : Sound P .null
  | bool (b : Bool) : Sound P (.bool b)
  | int {n : ℤ} (h : Short n.natAbs) : Sound P (.int n)
  | float {x : F} (h : P.Reads x) : Sound P (.float x)
  | str (s : List Char) : Sound P (.str s)
  | arr {items : List (Value F)} (h : ∀ v ∈ items, Sound P v) : Sound P (.arr items)
  | obj {items : List (List Char × Value F)} (hkeys : (items.map Prod.fst).Nodup)
      (h : ∀ item ∈ items, Sound P item.2) : Sound P (.obj items)

/-- A value can begin so. -/
def begins (c : Char) : Bool := !isWhite c && c ≠ ']' && c ≠ '}'

/-- The scanner reads `x` off this text, whatever comes after it. -/
structure Scans (item : Scanner α) (text : List Char) (x : α) : Prop where
  solid : ∃ c rest, text = c :: rest ∧ begins c = true
  scan : ∀ rest, Ends rest → item (text ++ rest) = some (x, rest)

section Items

theorem skip_solid {c : Char} (h : isWhite c = false) (s : List Char) : skip (c :: s) = c :: s := by
  simp [skip, h]

theorem not_isWhite_of_begins {c : Char} (h : begins c = true) : isWhite c = false := by
  simp only [begins, Bool.and_eq_true, Bool.not_eq_true'] at h
  exact h.1.1

theorem Scans.skip {item : Scanner α} {text : List Char} {x : α} (h : Scans item text x)
    (rest : List Char) : skip (text ++ rest) = text ++ rest := by
  obtain ⟨c, t, rfl, hc⟩ := h.solid
  exact skip_solid (not_isWhite_of_begins hc) _

theorem commas_cons_cons (t u : List Char) (texts : List (List Char)) :
    commas (t :: u :: texts) = t ++ (',' :: ' ' :: commas (u :: texts)) := by
  unfold commas
  rw [List.intercalate_cons_cons]
  simp

theorem scanItems_commas {close : Char} (hclose : close = ']' ∨ close = '}') {item : Scanner α}
    {texts : List (List Char)} {xs : List α} (h : List.Forall₂ (Scans item) texts xs)
    (hne : texts ≠ []) {fuel : ℕ} (hfuel : texts.length ≤ fuel) (rest : List Char) :
    scanItems close item fuel (commas texts ++ close :: rest) = some (xs, rest) := by
  have hwhite : isWhite close = false := by rcases hclose with rfl | rfl <;> decide
  have hends : Ends (close :: rest) := ends_cons (.inr hclose) rest
  have hcomma : ¬ ',' = close := by rcases hclose with rfl | rfl <;> decide
  induction h generalizing fuel with
  | nil => exact absurd rfl hne
  | @cons t x texts xs hx hxs ih =>
    cases fuel with
    | zero => cases hfuel
    | succ fuel =>
      cases hxs with
      | nil =>
        have hone : commas [t] = t := List.intercalate_singleton
        rw [hone, scanItems, hx.scan _ hends]
        simp only [Option.bind_eq_bind, Option.bind_some, skip_solid hwhite, if_true]
      | @cons u y texts xs hy hys =>
        have hfewer : (u :: texts).length ≤ fuel := by simpa using hfuel
        have hrest := ih (by simp) hfewer
        have hsolid : skip (' ' :: (commas (u :: texts) ++ close :: rest)) =
            commas (u :: texts) ++ close :: rest := by
          have hspace : skip (' ' :: (commas (u :: texts) ++ close :: rest)) =
              skip (commas (u :: texts) ++ close :: rest) := rfl
          rw [hspace]
          cases texts with
          | nil =>
            have hone : commas [u] = u := List.intercalate_singleton
            rw [hone]
            exact hy.skip _
          | cons w texts =>
            rw [commas_cons_cons, List.append_assoc]
            exact hy.skip _
        have hwhiteComma : isWhite ',' = false := by decide
        rw [commas_cons_cons, List.append_assoc, scanItems,
          hx.scan _ (by exact ends_cons (.inl rfl) _)]
        simp only [Option.bind_eq_bind, Option.bind_some, List.cons_append, skip_solid hwhiteComma,
          if_neg hcomma, if_true, hsolid, hrest]

theorem length_le_commas {texts : List (List Char)} {t : List Char} (h : t ∈ texts) :
    t.length ≤ (commas texts).length := by
  induction texts with
  | nil => cases h
  | cons u texts ih =>
    cases texts with
    | nil =>
      rw [List.mem_singleton.mp h]
      exact Nat.le_of_eq (congrArg List.length List.intercalate_singleton).symm
    | cons w texts =>
      rw [commas_cons_cons, List.length_append, List.length_cons, List.length_cons]
      rcases List.mem_cons.mp h with rfl | h
      · omega
      · have hle := ih h
        omega

theorem length_texts_le {item : Scanner α} {texts : List (List Char)} {xs : List α}
    (h : List.Forall₂ (Scans item) texts xs) : texts.length ≤ (commas texts).length := by
  induction h with
  | nil => exact Nat.le_refl 0
  | @cons t x texts xs hx hxs ih =>
    obtain ⟨c, rest, rfl, -⟩ := hx.solid
    cases texts with
    | nil =>
      have hone : commas [c :: rest] = c :: rest := List.intercalate_singleton
      rw [hone]
      simp
    | cons u texts =>
      rw [commas_cons_cons]
      simp only [List.length_append, List.length_cons] at ih ⊢
      omega

/-- A bracket with its items, after it was opened. -/
theorem scanBracketed_commas {close : Char} (hclose : close = ']' ∨ close = '}')
    {item : Scanner α} {texts : List (List Char)} {xs : List α}
    (h : List.Forall₂ (Scans item) texts xs) (rest : List Char) :
    scanBracketed close item (commas texts ++ close :: rest) = some (xs, rest) := by
  unfold scanBracketed
  cases h with
  | nil =>
    have hwhite : isWhite close = false := by rcases hclose with rfl | rfl <;> decide
    have hskip : skip (commas [] ++ close :: rest) = close :: rest := skip_solid hwhite rest
    rw [hskip]
    simp
  | @cons t x texts xs hx hxs =>
    have hfuel : (t :: texts).length ≤ (commas (t :: texts) ++ close :: rest).length := by
      have hle := length_texts_le (List.Forall₂.cons hx hxs)
      rw [List.length_append]
      omega
    have hscan := scanItems_commas hclose (List.Forall₂.cons hx hxs) (by simp) hfuel rest
    obtain ⟨c, t', rfl, hc⟩ := hx.solid
    obtain ⟨more, hmore⟩ : ∃ more, commas ((c :: t') :: texts) ++ close :: rest = c :: more := by
      cases texts with
      | nil => exact ⟨_, rfl⟩
      | cons u texts =>
        rw [commas_cons_cons]
        exact ⟨_, rfl⟩
    have hne : ¬ (c :: more).head? = some close := by
      rw [List.head?_cons]
      intro heq
      obtain rfl := Option.some.inj heq
      rcases hclose with rfl | rfl <;> cases hc
    rw [hmore] at hscan ⊢
    rw [skip_solid (not_isWhite_of_begins hc), if_neg hne]
    exact hscan

theorem setItem_of_not_mem {key : List Char} {v : Value F} {items : List (List Char × Value F)}
    (h : key ∉ items.map Prod.fst) : setItem key v items = items ++ [(key, v)] := by
  induction items with
  | nil => rfl
  | cons item items ih =>
    rw [List.map_cons, List.mem_cons, not_or] at h
    rw [setItem, if_neg (Ne.symm h.1), ih h.2]
    rfl

/-- Members with different keys stay as they are. -/
theorem dict_of_nodup {members : List (List Char × Value F)}
    (h : (members.map Prod.fst).Nodup) : dict members = members := by
  suffices hall : ∀ items : List (List Char × Value F), ((items ++ members).map Prod.fst).Nodup →
      members.foldl (fun items member => setItem member.1 member.2 items) items =
        items ++ members from hall [] h
  clear h
  induction members with
  | nil => simp
  | cons member members ih =>
    intro items hnodup
    have hnew : member.1 ∉ items.map Prod.fst := by
      rw [List.map_append, List.map_cons] at hnodup
      intro hmem
      exact (List.nodup_append.mp hnodup).2.2 _ hmem _ List.mem_cons_self rfl
    rw [List.foldl_cons, setItem_of_not_mem hnew, ih _ (by simpa using hnodup)]
    simp

end Items

section Values

variable {P : Floats F}

/-- A word is recognized by its first characters. -/
theorem scanWord_eq_none {c : Char} {t : List Char} (hc : c ∉ ['n', 't', 'f', 'N', 'I'])
    (ht : c = '-' → t.head? ≠ some 'I') : scanWord P (c :: t) = none := by
  have hwords : ∀ word ∈ words P, word.1.isPrefixOf (c :: t) = false := by
    intro word hmem
    rw [Bool.eq_false_iff]
    intro hfront
    have hfront := List.isPrefixOf_iff_prefix.mp hfront
    simp only [words, List.mem_cons, List.not_mem_nil, or_false] at hmem hc
    rcases hmem with rfl | rfl | rfl | rfl | rfl | rfl
    · exact hc (.inl (List.cons_prefix_cons.mp hfront).1.symm)
    · exact hc (.inr (.inl (List.cons_prefix_cons.mp hfront).1.symm))
    · exact hc (.inr (.inr (.inl (List.cons_prefix_cons.mp hfront).1.symm)))
    · exact hc (.inr (.inr (.inr (.inl (List.cons_prefix_cons.mp hfront).1.symm))))
    · exact hc (.inr (.inr (.inr (.inr (List.cons_prefix_cons.mp hfront).1.symm))))
    · obtain ⟨hminus, hrest⟩ := List.cons_prefix_cons.mp hfront
      apply ht hminus.symm
      obtain ⟨more, rfl⟩ := hrest
      rfl
  unfold scanWord
  rw [List.find?_eq_none.mpr fun word hmem => by rw [hwords word hmem]; decide]
  rfl

/-- The text of a number, as far as the scanners dispatch on it. -/
theorem number_begins (P : Floats F) (negative : Bool) (n : ℕ) (rest : List Char) :
    ∃ c t, minusText negative ++ (Nat.toDigits 10 n ++ rest) = c :: t ∧
      (c ≠ '"' ∧ c ≠ '[' ∧ c ≠ '{') ∧ begins c = true ∧ scanWord P (c :: t) = none := by
  cases h : Nat.toDigits 10 n with
  | nil => exact absurd h Nat.toDigits_ne_nil
  | cons c digits =>
    have hdigit : c.isDigit = true := by
      apply isDigit_of_mem (n := n)
      rw [h]
      exact List.mem_cons_self
    have hne : ∀ c', c'.isDigit = false → c ≠ c' := by
      rintro c' hc' rfl
      rw [hdigit] at hc'
      cases hc'
    cases negative with
    | true =>
      refine ⟨'-', c :: (digits ++ rest), rfl, by decide, by decide, ?_⟩
      refine scanWord_eq_none (by decide) fun _ hI => ?_
      exact hne 'I' (by decide) (Option.some.inj hI)
    | false =>
      have hwhite : isWhite c = false := by
        simp [isWhite, hne ' ' (by decide), hne '\t' (by decide), hne '\n' (by decide),
          hne '\r' (by decide)]
      refine ⟨c, digits ++ rest, rfl, ?_, ?_, ?_⟩
      · exact ⟨hne _ (by decide), hne _ (by decide), hne _ (by decide)⟩
      · simp [begins, hwhite, hne ']' (by decide), hne '}' (by decide)]
      · refine scanWord_eq_none ?_ fun hminus => absurd hminus (hne '-' (by decide))
        simp [hne 'n' (by decide), hne 't' (by decide), hne 'f' (by decide), hne 'N' (by decide),
          hne 'I' (by decide)]

theorem scanValue_other {fuel : ℕ} {c : Char} (hc : c ≠ '"' ∧ c ≠ '[' ∧ c ≠ '{') (s : List Char) :
    scanValue P (fuel + 1) (c :: s) =
      (scanWord P (c :: s)).orElse fun _ => scanNumber P (c :: s) := by
  rw [scanValue, if_neg hc.1, if_neg hc.2.1, if_neg hc.2.2]

theorem dumpsAll_eq (items : List (Value F)) : dumpsAll P items = items.map (Value.dumps P) := by
  induction items with
  | nil => rfl
  | cons v items ih => rw [dumpsAll, ih, List.map_cons]

def memberText (P : Floats F) (item : List Char × Value F) : List Char :=
  quote item.1 ++ (':' :: ' ' :: item.2.dumps P)

theorem dumpsItems_eq (items : List (List Char × Value F)) :
    dumpsItems P items = items.map (memberText P) := by
  induction items with
  | nil => rfl
  | cons item items ih =>
    obtain ⟨key, v⟩ := item
    rw [dumpsItems, ih, List.map_cons]
    rfl

theorem forall₂_map {text : α → List Char} {item : Scanner α} {xs : List α}
    (h : ∀ x ∈ xs, Scans item (text x) x) : List.Forall₂ (Scans item) (xs.map text) xs := by
  induction xs with
  | nil => exact .nil
  | cons x xs ih =>
    rw [List.forall_mem_cons] at h
    exact .cons h.1 (ih h.2)

theorem scans_member {value : Scanner (Value F)} {item : List Char × Value F}
    (h : Scans value (item.2.dumps P) item.2) : Scans (scanMember value) (memberText P item) item where
  solid := ⟨'"', _, rfl, by decide⟩
  scan rest hrest := by
    have htext : memberText P item ++ rest =
        '"' :: (item.1.flatMap escape ++ '"' :: ':' :: ' ' :: (item.2.dumps P ++ rest)) := by
      simp [memberText, quote]
    have hcolon : isWhite ':' = false := by decide
    have hspace : skip (' ' :: (item.2.dumps P ++ rest)) = skip (item.2.dumps P ++ rest) := rfl
    rw [htext, scanMember, scanString_quote]
    simp only [Option.bind_eq_bind, Option.bind_some, skip_solid hcolon, hspace, h.skip,
      h.scan rest hrest]

/-- A text that is none of a word, a string and a bracket, and is scanned as a number. -/
theorem scans_number {fuel : ℕ} {negative : Bool} {n : ℕ} {more : List Char} {v : Value F}
    (h : ∀ rest, Ends rest →
      scanNumber P (minusText negative ++ (Nat.toDigits 10 n ++ (more ++ rest))) = some (v, rest)) :
    Scans (scanValue P (fuel + 1)) (minusText negative ++ (Nat.toDigits 10 n ++ more)) v where
  solid := by
    obtain ⟨c, t, htext, -, hbegins, -⟩ := number_begins P negative n more
    exact ⟨c, t, htext, hbegins⟩
  scan rest hrest := by
    obtain ⟨c, t, htext, hother, -, hword⟩ := number_begins P negative n (more ++ rest)
    have hscan := h rest hrest
    rw [List.append_assoc, List.append_assoc]
    rw [htext] at hscan ⊢
    rw [scanValue_other hother, hword, hscan]
    rfl

/-- What is written as a word is read as that word. -/
theorem scans_word {fuel : ℕ} {text : List Char} {v : Value F} (h : (text, v) ∈ words P) :
    Scans (scanValue P (fuel + 1)) text v := by
  simp only [words, List.mem_cons, Prod.mk.injEq, List.not_mem_nil, or_false] at h
  rcases h with ⟨rfl, rfl⟩ | ⟨rfl, rfl⟩ | ⟨rfl, rfl⟩ | ⟨rfl, rfl⟩ | ⟨rfl, rfl⟩ | ⟨rfl, rfl⟩ <;>
    exact ⟨⟨_, _, rfl, by decide⟩, fun rest _ => rfl⟩

theorem scans_float {fuel : ℕ} {x : F} (h : P.Reads x) :
    Scans (scanValue P (fuel + 1)) (P.repr x) (.float x) := by
  cases h with
  | nan h =>
    rw [h]
    exact scans_word (by simp [words])
  | infinity negative h =>
    rw [h]
    cases negative with
    | false => exact scans_word (by simp [words, minusText])
    | true => exact scans_word (by simp [words, minusText])
  | literal l h hx =>
    rw [h]
    refine scans_number fun rest hrest => ?_
    have hscan := scanNumber_literal (P := P) l hrest
    rw [hx] at hscan
    unfold FloatLiteral.text at hscan
    rw [List.append_assoc, List.append_assoc] at hscan
    exact hscan

theorem scans_int {fuel : ℕ} {n : ℤ} (h : Short n.natAbs) :
    Scans (scanValue P (fuel + 1)) (intText n) (.int n) := by
  have hscans : Scans (scanValue P (fuel + 1))
      (minusText (n < 0) ++ (Nat.toDigits 10 n.natAbs ++ [])) (.int n) := by
    refine scans_number fun rest hrest => ?_
    have hscan := scanNumber_intText (P := P) h hrest
    unfold intText at hscan
    rw [List.append_assoc] at hscan
    exact hscan
  rw [List.append_nil] at hscans
  exact hscans

theorem scans_str {fuel : ℕ} (s : List Char) :
    Scans (scanValue P (fuel + 1)) (quote s) (.str s) where
  solid := ⟨'"', _, rfl, by decide⟩
  scan rest _ := by
    have htext : quote s ++ rest = '"' :: (s.flatMap escape ++ '"' :: rest) := by simp [quote]
    rw [htext, scanValue, if_pos rfl, scanString_quote]
    rfl

theorem scans_arr {fuel : ℕ} {items : List (Value F)}
    (h : ∀ v ∈ items, Scans (scanValue P fuel) (v.dumps P) v) :
    Scans (scanValue P (fuel + 1)) ((Value.arr items).dumps P) (.arr items) where
  solid := ⟨'[', _, by rw [Value.dumps], by decide⟩
  scan rest _ := by
    have htext : (Value.arr items).dumps P ++ rest =
        '[' :: (commas (items.map (Value.dumps P)) ++ ']' :: rest) := by
      rw [Value.dumps, dumpsAll_eq]
      simp
    have hquote : ¬ '[' = '"' := by decide
    rw [htext, scanValue, if_neg hquote, if_pos rfl,
      scanBracketed_commas (.inl rfl) (forall₂_map h)]
    rfl

theorem scans_obj {fuel : ℕ} {items : List (List Char × Value F)}
    (hkeys : (items.map Prod.fst).Nodup)
    (h : ∀ item ∈ items, Scans (scanValue P fuel) (item.2.dumps P) item.2) :
    Scans (scanValue P (fuel + 1)) ((Value.obj items).dumps P) (.obj items) where
  solid := ⟨'{', _, by rw [Value.dumps], by decide⟩
  scan rest _ := by
    have htext : (Value.obj items).dumps P ++ rest =
        '{' :: (commas (items.map (memberText P)) ++ '}' :: rest) := by
      rw [Value.dumps, dumpsItems_eq]
      simp
    have hquote : ¬ '{' = '"' := by decide
    have hbracket : ¬ '{' = '[' := by decide
    have hmembers : ∀ item ∈ items,
        Scans (scanMember (scanValue P fuel)) (memberText P item) item :=
      fun item hmem => scans_member (h item hmem)
    rw [htext, scanValue, if_neg hquote, if_neg hbracket, if_pos rfl,
      scanBracketed_commas (.inr rfl) (forall₂_map hmembers)]
    simp only [Option.map_some, dict_of_nodup hkeys]

theorem dumps_ne_nil {v : Value F} (h : v.Sound P) : v.dumps P ≠ [] := by
  cases h with
  | bool b => cases b <;> simp [Value.dumps]
  | int h =>
    have hscans : Scans (scanValue P 1) (intText _) (.int _) := scans_int h
    obtain ⟨c, t, htext, -⟩ := hscans.solid
    simp [Value.dumps, htext]
  | float h =>
    have hscans : Scans (scanValue P 1) (P.repr _) (.float _) := scans_float h
    obtain ⟨c, t, htext, -⟩ := hscans.solid
    simp [Value.dumps, htext]
  | str s => simp [Value.dumps, quote]
  | _ => simp [Value.dumps]

/-- Fuel for the length of the text is enough: brackets take two characters for each level. -/
theorem scans_value {v : Value F} (h : v.Sound P) {fuel : ℕ} (hfuel : (v.dumps P).length ≤ fuel) :
    Scans (scanValue P fuel) (v.dumps P) v := by
  induction fuel generalizing v with
  | zero => exact absurd (List.eq_nil_of_length_eq_zero (Nat.le_zero.mp hfuel)) (dumps_ne_nil h)
  | succ fuel ih =>
    cases h with
    | null => exact scans_word (by simp [words, Value.dumps])
    | bool b =>
      cases b with
      | true => exact scans_word (by simp [words, Value.dumps])
      | false => exact scans_word (by simp [words, Value.dumps])
    | int h => exact scans_int h
    | float h => exact scans_float h
    | str s => exact scans_str s
    | @arr items h =>
      refine scans_arr fun v hmem => ih (h v hmem) ?_
      have hle : (v.dumps P).length ≤ (commas (dumpsAll P items)).length := by
        apply length_le_commas
        rw [dumpsAll_eq]
        exact List.mem_map_of_mem hmem
      simp only [Value.dumps, List.length_cons, List.length_append] at hfuel
      omega
    | @obj items hkeys h =>
      refine scans_obj hkeys fun item hmem => ih (h item hmem) ?_
      have hle : (memberText P item).length ≤ (commas (dumpsItems P items)).length := by
        apply length_le_commas
        rw [dumpsItems_eq]
        exact List.mem_map_of_mem hmem
      simp only [Value.dumps, memberText, List.length_cons, List.length_append] at hfuel hle
      omega

/-- `json.loads(json.dumps(v))`. -/
theorem loads_dumps {v : Value F} (h : v.Sound P) : loads P (v.dumps P) = some v := by
  have hscans := scans_value h (Nat.le_refl _)
  have hskip := hscans.skip []
  have hscan := hscans.scan [] ends_nil
  rw [List.append_nil] at hskip hscan
  unfold loads
  rw [hskip, hscan]
  rfl

end Values

end Python.JsonText
