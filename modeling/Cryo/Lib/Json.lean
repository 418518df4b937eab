import Mathlib.Algebra.Order.Field.Rat
import Mathlib.Data.List.Forall2

/-!
# JSON

The grammar of RFC 8259: which text is which value. A number is the rational that it denotes, a string the list of its
characters, and an object the list of its members in their order. An escape that denotes half of a surrogate pair
denotes no character. A parser that is run with enough fuel finds the value of every text of the grammar, so that a text
is at most one value.

* `Value`, `Character`, `Number`, `Derives`, `Text`: the values and the grammar.
* `parse`, `parse_of_derives`: the parser, and what it finds.
* `Text.unique`: a text is one value.
-/

namespace Json

inductive Value where
  | null
  | bool (b : Bool)
  | number (q : ℚ)
  | string (s : String)
  | array (vs : List Value)
  | object (ms : List (String × Value))

/-! ## The grammar -/

/-- The characters of `ws`. -/
def isBlank (c : Char) : Bool := c = ' ' || c = '\t' || c = '\n' || c = '\r'

def Blank (w : List Char) : Prop := ∀ c ∈ w, isBlank c

def hexDigit (c : Char) : Option Nat :=
  if '0' ≤ c ∧ c ≤ '9' then some (c.toNat - 48)
  else if 'a' ≤ c ∧ c ≤ 'f' then some (c.toNat - 87)
  else if 'A' ≤ c ∧ c ≤ 'F' then some (c.toNat - 55)
  else none

def hexDigits (a b c d : Char) : Option Nat := do
  let a ← hexDigit a
  let b ← hexDigit b
  let c ← hexDigit c
  let d ← hexDigit d
  some (4096 * a + 256 * b + 16 * c + d)

/-- The character of an escape of two characters, by the second. -/
def short (e : Char) : Option Char :=
  if e = '\"' ∨ e = '\\' ∨ e = '/' then some e
  else if e = 'b' then some '\x08'
  else if e = 'f' then some '\x0c'
  else if e = 'n' then some '\n'
  else if e = 'r' then some '\r'
  else if e = 't' then some '\t'
  else none

/-- A character that may stand in a string as it is. -/
def Unescaped (c : Char) : Prop := 0x20 ≤ c.toNat ∧ c ≠ '\"' ∧ c ≠ '\\'

instance (c : Char) : Decidable (Unescaped c) := inferInstanceAs (Decidable (_ ∧ _ ∧ _))

/-- The code point of a surrogate pair. -/
def paired (high low : Nat) : Nat := 0x10000 + 0x400 * (high - 0xd800) + (low - 0xdc00)

/-- `char`: a text inside a string, and the character that it denotes. -/
inductive Character : List Char → Char → Prop
  | unescaped {c : Char} (h : Unescaped c) : Character [c] c
  | short {e c : Char} (h : short e = some c) : Character ['\\', e] c
  | unicode {a b c d : Char} {n : Nat} (h : hexDigits a b c d = some n) (hn : n.isValidChar) :
    Character ['\\', 'u', a, b, c, d] (Char.ofNat n)
  | pair {a b c d a' b' c' d' : Char} {high low : Nat} (hhigh : hexDigits a b c d = some high)
    (hlow : hexDigits a' b' c' d' = some low) (hh : 0xd800 ≤ high ∧ high < 0xdc00) (hl : 0xdc00 ≤ low ∧ low < 0xe000) :
    Character ['\\', 'u', a, b, c, d, '\\', 'u', a', b', c', d'] (Char.ofNat (paired high low))

/-- `1*DIGIT`. -/
def Digits (ds : List Char) : Prop := ds ≠ [] ∧ ∀ d ∈ ds, d.isDigit

def natOf (ds : List Char) : Nat := Nat.ofDigitChars 10 ds 0

/-- `int`. -/
inductive Integer : List Char → Nat → Prop
  | zero : Integer ['0'] 0
  | positive {ds : List Char} (hds : Digits ds) (hzero : ds.head? ≠ some '0') : Integer ds (natOf ds)

/-- `frac`, which may be missing. -/
inductive Fraction : List Char → ℚ → Prop
  | none : Fraction [] 0
  | digits {ds : List Char} (hds : Digits ds) : Fraction ('.' :: ds) (natOf ds / 10 ^ ds.length)

/-- `exp`, which may be missing. -/
inductive Exponent : List Char → ℚ → Prop
  | none : Exponent [] 1
  | unsigned {e : Char} {ds : List Char} (he : e = 'e' ∨ e = 'E') (hds : Digits ds) : Exponent (e :: ds) (10 ^ natOf ds)
  | plus {e : Char} {ds : List Char} (he : e = 'e' ∨ e = 'E') (hds : Digits ds) :
    Exponent (e :: '+' :: ds) (10 ^ natOf ds)
  | minus {e : Char} {ds : List Char} (he : e = 'e' ∨ e = 'E') (hds : Digits ds) :
    Exponent (e :: '-' :: ds) (1 / 10 ^ natOf ds)

/-- `number`. -/
inductive Number : List Char → ℚ → Prop
  | unsigned {i f e : List Char} {n : Nat} {x y : ℚ} (hi : Integer i n) (hf : Fraction f x) (he : Exponent e y) :
    Number (i ++ (f ++ e)) ((n + x) * y)
  | negative {i f e : List Char} {n : Nat} {x y : ℚ} (hi : Integer i n) (hf : Fraction f x) (he : Exponent e y) :
    Number ('-' :: (i ++ (f ++ e))) (-((n + x) * y))

/-- A value, and what stands between the brackets of an array or of an object that is not empty. -/
inductive Part where
  | value
  | elements
  | members

/-- The text of a part. Elements are the array of them, members the object of them. -/
inductive Derives : Part → List Char → Value → Prop
  | null : Derives .value ['n', 'u', 'l', 'l'] .null
  | true : Derives .value ['t', 'r', 'u', 'e'] (.bool true)
  | false : Derives .value ['f', 'a', 'l', 's', 'e'] (.bool false)
  | number {t : List Char} {q : ℚ} (h : Number t q) : Derives .value t (.number q)
  | string {ts : List (List Char)} {s : String} (h : List.Forall₂ Character ts s.toList) :
    Derives .value ('\"' :: (ts.flatten ++ ['\"'])) (.string s)
  | emptyArray {w : List Char} (hw : Blank w) : Derives .value ('[' :: (w ++ [']'])) (.array [])
  | array {t : List Char} {v : Value} (h : Derives .elements t v) : Derives .value ('[' :: (t ++ [']'])) v
  | emptyObject {w : List Char} (hw : Blank w) : Derives .value ('\x7b' :: (w ++ ['\x7d'])) (.object [])
  | object {t : List Char} {v : Value} (h : Derives .members t v) : Derives .value ('\x7b' :: (t ++ ['\x7d'])) v
  | element {w t w' : List Char} {v : Value} (hw : Blank w) (h : Derives .value t v) (hw' : Blank w') :
    Derives .elements (w ++ (t ++ w')) (.array [v])
  | elements {w t w' ts : List Char} {v : Value} {vs : List Value} (hw : Blank w) (h : Derives .value t v)
    (hw' : Blank w') (hs : Derives .elements ts (.array vs)) :
    Derives .elements (w ++ (t ++ (w' ++ ',' :: ts))) (.array (v :: vs))
  | member {w k w₁ w₂ t w' : List Char} {s : String} {v : Value} (hw : Blank w) (hk : Derives .value k (.string s))
    (hw₁ : Blank w₁) (hw₂ : Blank w₂) (h : Derives .value t v) (hw' : Blank w') :
    Derives .members (w ++ (k ++ (w₁ ++ ':' :: (w₂ ++ (t ++ w'))))) (.object [(s, v)])
  | members {w k w₁ w₂ t w' ts : List Char} {s : String} {v : Value} {ms : List (String × Value)} (hw : Blank w)
    (hk : Derives .value k (.string s)) (hw₁ : Blank w₁) (hw₂ : Blank w₂) (h : Derives .value t v) (hw' : Blank w')
    (hs : Derives .members ts (.object ms)) :
    Derives .members (w ++ (k ++ (w₁ ++ ':' :: (w₂ ++ (t ++ (w' ++ ',' :: ts)))))) (.object ((s, v) :: ms))

/-- `JSON-text`. -/
def Text (t : List Char) (v : Value) : Prop :=
  ∃ w t' w', Blank w ∧ Derives .value t' v ∧ Blank w' ∧ t = w ++ (t' ++ w')

/-! ## The parser -/

def expect (w s : List Char) : Option (List Char) := if w.isPrefixOf s then some (s.drop w.length) else none

def skip (s : List Char) : List Char := s.dropWhile isBlank

/-- A character after a backslash and `u`. -/
def unicode : List Char → Option (Char × List Char)
  | a :: b :: c :: d :: s => do
    let n ← hexDigits a b c d
    if n.isValidChar then some (Char.ofNat n, s)
    else match s with
      | _ :: _ :: a' :: b' :: c' :: d' :: s => do
        let low ← hexDigits a' b' c' d'
        some (Char.ofNat (paired n low), s)
      | _ => none
  | _ => none

def character : List Char → Option (Char × List Char)
  | [] => none
  | c :: s =>
    if c ≠ '\\' then some (c, s)
    else match s with
      | [] => none
      | e :: s => if e = 'u' then unicode s else (short e).map fun c => (c, s)

/-- The characters up to the end of a string. -/
def characters : Nat → List Char → Option (List Char × List Char)
  | 0, _ => none
  | n + 1, s =>
    if s.head? = some '\"' then some ([], s.tail)
    else do
      let (c, s) ← character s
      let (cs, r) ← characters n s
      some (c :: cs, r)

def digits (s : List Char) : Option (List Char × List Char) :=
  if s.takeWhile Char.isDigit = [] then none else some (s.takeWhile Char.isDigit, s.dropWhile Char.isDigit)

def fraction (s : List Char) : Option (ℚ × List Char) :=
  if s.head? = some '.' then (digits s.tail).map fun p => (natOf p.1 / 10 ^ p.1.length, p.2) else some (0, s)

def exponent (s : List Char) : Option (ℚ × List Char) :=
  if s.head? = some 'e' ∨ s.head? = some 'E' then
    if s.tail.head? = some '-' then (digits s.tail.tail).map fun p => (1 / 10 ^ natOf p.1, p.2)
    else if s.tail.head? = some '+' then (digits s.tail.tail).map fun p => (10 ^ natOf p.1, p.2)
    else (digits s.tail).map fun p => (10 ^ natOf p.1, p.2)
  else some (1, s)

def unsigned (s : List Char) : Option (ℚ × List Char) := do
  let (ds, s) ← digits s
  let (x, s) ← fraction s
  let (y, r) ← exponent s
  some ((natOf ds + x) * y, r)

def number (s : List Char) : Option (ℚ × List Char) :=
  if s.head? = some '-' then (unsigned s.tail).map fun p => (-p.1, p.2) else unsigned s

/-- An array or an object with one more at its front. -/
def consElement (v : Value) : Value → Option Value
  | .array vs => some (.array (v :: vs))
  | _ => none

def consMember (m : String × Value) : Value → Option Value
  | .object ms => some (.object (m :: ms))
  | _ => none

/-- What follows a bracket of `close`: nothing but blanks up to the other one, or parts. -/
def bracketed (close : Char) (empty : Value) (part : List Char → Option (Value × List Char)) (s : List Char) :
    Option (Value × List Char) :=
  if (skip s).head? = some close then some (empty, (skip s).tail)
  else do
    let (v, s) ← part s
    let r ← expect [close] s
    some (v, r)

/-- The value at the front of a text, and what is left of the text. -/
def parse : Nat → Part → List Char → Option (Value × List Char)
  | 0, _, _ => none
  | n + 1, .value, s =>
    match s.head? with
    | none => none
    | some c =>
      if c = 'n' then (expect ['n', 'u', 'l', 'l'] s).map fun r => (.null, r)
      else if c = 't' then (expect ['t', 'r', 'u', 'e'] s).map fun r => (.bool true, r)
      else if c = 'f' then (expect ['f', 'a', 'l', 's', 'e'] s).map fun r => (.bool false, r)
      else if c = '\"' then (characters n s.tail).map fun p => (.string (String.ofList p.1), p.2)
      else if c = '[' then bracketed ']' (.array []) (parse n .elements) s.tail
      else if c = '\x7b' then bracketed '\x7d' (.object []) (parse n .members) s.tail
      else (number s).map fun p => (.number p.1, p.2)
  | n + 1, .elements, s => do
    let (v, s) ← parse n .value (skip s)
    let s := skip s
    if s.head? = some ',' then do
      let (vs, r) ← parse n .elements s.tail
      let vs ← consElement v vs
      some (vs, r)
    else some (.array [v], s)
  | n + 1, .members, s => do
    let (k, s) ← parse n .value (skip s)
    let .string k := k | none
    let s ← expect [':'] (skip s)
    let (v, s) ← parse n .value (skip s)
    let s := skip s
    if s.head? = some ',' then do
      let (ms, r) ← parse n .members s.tail
      let ms ← consMember (k, v) ms
      some (ms, r)
    else some (.object [(k, v)], s)

/-! ## What the parser finds -/

variable {t r w : List Char}

@[simp] theorem expect_append : expect w (w ++ r) = some r := by simp [expect]

theorem expect_cons {c : Char} : expect [c] (c :: r) = some r := expect_append (w := [c])

/-- The text does not go on with a blank. -/
def Visible (r : List Char) : Prop := ∀ c ∈ r.head?, isBlank c = false

theorem skip_of_visible (hr : Visible r) : skip r = r := by
  cases r with
  | nil => rfl
  | cons c r => exact List.dropWhile_cons_of_neg (by simp [hr c rfl])

theorem skip_append (hw : Blank w) (hr : Visible r) : skip (w ++ r) = r := by
  unfold skip
  rw [List.dropWhile_append_of_pos hw]
  exact skip_of_visible hr

theorem character_append {c : Char} (h : Character t c) : character (t ++ r) = some (c, r) := by
  cases h with
  | unescaped h => simp [character, h.2.2]
  | short h =>
    rename_i e
    have he : e ≠ 'u' := by
      rintro rfl
      cases h
    simp [character, he, h]
  | unicode h hn => simp [character, unicode, h, hn]
  | pair hhigh hlow hh hl =>
    have hn : ¬ Nat.isValidChar _ := fun hvalid => by
      rcases hvalid with hlt | ⟨hgt, -⟩
      · exact absurd hh.1 (Nat.not_le.2 hlt)
      · exact absurd (Nat.lt_trans hh.2 (by decide)) (Nat.not_lt.2 (Nat.le_of_lt hgt))
    simp [character, unicode, hhigh, hlow, hn]

/-- A character does not look like the end of the string. -/
theorem head_character {c : Char} (h : Character t c) : (t ++ r).head? ≠ some '\"' := by
  cases h with
  | unescaped h => simpa using h.2.1
  | _ => simp

theorem characters_append : ∀ {ts : List (List Char)} {cs : List Char}, List.Forall₂ Character ts cs →
    ∀ {n : Nat}, ts.length < n → characters n (ts.flatten ++ '\"' :: r) = some (cs, r)
  | [], [], .nil, n + 1, _ => by simp [characters]
  | t :: ts, c :: cs, .cons h hs, n + 1, hn => by
    have hrest : characters n (ts.flatten ++ '\"' :: r) = some (cs, r) :=
      characters_append hs (Nat.lt_of_succ_lt_succ hn)
    have hread : character (t ++ (ts.flatten ++ '\"' :: r)) = some (c, ts.flatten ++ '\"' :: r) := character_append h
    rw [List.flatten_cons, List.append_assoc, characters, if_neg (head_character h), hread]
    simp [hrest]

/-! ### Numbers -/

/-- The text does not go on with a digit. -/
def Stops (r : List Char) : Prop := ∀ c ∈ r.head?, c.isDigit = false

theorem digits_append {ds : List Char} (hds : Digits ds) (hr : Stops r) : digits (ds ++ r) = some (ds, r) := by
  have hstop : r.takeWhile Char.isDigit = [] ∧ r.dropWhile Char.isDigit = r := by
    cases r with
    | nil => exact ⟨rfl, rfl⟩
    | cons c r => simp [hr c rfl]
  have htake : (ds ++ r).takeWhile Char.isDigit = ds := by
    rw [List.takeWhile_append_of_pos hds.2, hstop.1, List.append_nil]
  have hdrop : (ds ++ r).dropWhile Char.isDigit = r := by
    rw [List.dropWhile_append_of_pos hds.2, hstop.2]
  unfold digits
  rw [htake, hdrop, if_neg hds.1]

/-- The text does not go on as a number. -/
def Apart (r : List Char) : Prop := ∀ c ∈ r.head?, c.isDigit = false ∧ c ≠ '.' ∧ c ≠ 'e' ∧ c ≠ 'E'

theorem Apart.stops (hr : Apart r) : Stops r := fun c hc => (hr c hc).1

theorem Digits.head {ds : List Char} (hds : Digits ds) : ∃ d ds', ds = d :: ds' ∧ d.isDigit := by
  cases ds with
  | nil => exact absurd rfl hds.1
  | cons d ds => exact ⟨d, ds, rfl, hds.2 d List.mem_cons_self⟩

theorem digits_of_integer {n : Nat} (h : Integer t n) : Digits t ∧ natOf t = n := by
  cases h with
  | zero => exact ⟨⟨by simp, by simp⟩, rfl⟩
  | positive hds _ => exact ⟨hds, rfl⟩

theorem exponent_append {y : ℚ} (h : Exponent t y) (hr : Apart r) : exponent (t ++ r) = some (y, r) := by
  cases h with
  | none =>
    have hhead : ¬ (r.head? = some 'e' ∨ r.head? = some 'E') := by
      rintro (he | he)
      · exact (hr _ he).2.2.1 rfl
      · exact (hr _ he).2.2.2 rfl
    rw [List.nil_append, exponent, if_neg hhead]
  | unsigned he hds =>
    obtain ⟨d, ds, rfl, hd⟩ := hds.head
    have hminus : d ≠ '-' := by
      rintro rfl
      exact absurd hd (by decide)
    have hplus : d ≠ '+' := by
      rintro rfl
      exact absurd hd (by decide)
    have hread := digits_append hds hr.stops
    rcases he with rfl | rfl <;> simp_all [exponent]
  | plus he hds =>
    have hread := digits_append hds hr.stops
    rcases he with rfl | rfl <;> simp [exponent, hread]
  | minus he hds =>
    have hread := digits_append hds hr.stops
    rcases he with rfl | rfl <;> simp [exponent, hread]

/-- What follows a fraction: an exponent, or no number. -/
theorem stops_exponent {y : ℚ} (h : Exponent t y) (hr : Apart r) :
    ∀ c ∈ (t ++ r).head?, c.isDigit = false ∧ c ≠ '.' := by
  intro c hc
  cases h with
  | none => exact ⟨(hr c hc).1, (hr c hc).2.1⟩
  | unsigned he _ | plus he _ | minus he _ =>
    simp only [List.cons_append, List.head?_cons, Option.mem_def, Option.some.injEq] at hc
    rcases he with rfl | rfl <;> subst hc <;> decide

theorem fraction_append {x : ℚ} (h : Fraction t x) (hr : ∀ c ∈ r.head?, c.isDigit = false ∧ c ≠ '.') :
    fraction (t ++ r) = some (x, r) := by
  cases h with
  | none =>
    have hhead : r.head? ≠ some '.' := fun he => (hr _ he).2 rfl
    rw [List.nil_append, fraction, if_neg hhead]
  | digits hds =>
    have hread := digits_append hds fun c hc => (hr c hc).1
    simp [fraction, hread]

theorem stops_fraction {x : ℚ} (h : Fraction t x) (hr : ∀ c ∈ r.head?, c.isDigit = false ∧ c ≠ '.') :
    Stops (t ++ r) := by
  intro c hc
  cases h with
  | none => exact (hr c hc).1
  | digits _ =>
    simp only [List.cons_append, List.head?_cons, Option.mem_def, Option.some.injEq] at hc
    subst hc
    decide

theorem unsigned_append {i f e : List Char} {n : Nat} {x y : ℚ} (hi : Integer i n) (hf : Fraction f x)
    (he : Exponent e y) (hr : Apart r) : unsigned (i ++ (f ++ e) ++ r) = some ((n + x) * y, r) := by
  obtain ⟨hds, rfl⟩ := digits_of_integer hi
  have hexp := stops_exponent he hr
  have hint : digits (i ++ (f ++ (e ++ r))) = some (i, f ++ (e ++ r)) := digits_append hds (stops_fraction hf hexp)
  rw [List.append_assoc, List.append_assoc, unsigned, hint]
  simp [fraction_append hf hexp, exponent_append he hr]

/-- A number begins with a digit or a sign. -/
theorem head_number {q : ℚ} (h : Number t q) : ∃ c t', t = c :: t' ∧ (c.isDigit ∨ c = '-') := by
  cases h with
  | unsigned hi _ _ =>
    obtain ⟨d, ds, rfl, hd⟩ := (digits_of_integer hi).1.head
    exact ⟨d, _, rfl, .inl hd⟩
  | negative _ _ _ => exact ⟨'-', _, rfl, .inr rfl⟩

theorem number_append {q : ℚ} (h : Number t q) (hr : Apart r) : number (t ++ r) = some (q, r) := by
  cases h with
  | unsigned hi hf he =>
    obtain ⟨d, ds, hcons, hd⟩ := (digits_of_integer hi).1.head
    have hminus : d ≠ '-' := by
      rintro rfl
      exact absurd hd (by decide)
    rw [number, if_neg (by simpa [hcons] using hminus)]
    exact unsigned_append hi hf he hr
  | negative hi hf he => simpa [number] using unsigned_append hi hf he hr

/-! ### Values -/

/-- How the text goes on after a part: after a value not as a number, and after the others with their bracket. -/
def Follows : Part → List Char → Prop
  | .value, r => Apart r
  | .elements, r => r.head? = some ']'
  | .members, r => r.head? = some '\x7d'

theorem apart_of_blank {c : Char} (h : isBlank c) : c.isDigit = false ∧ c ≠ '.' ∧ c ≠ 'e' ∧ c ≠ 'E' := by
  simp only [isBlank, Bool.or_eq_true, decide_eq_true_eq] at h
  rcases h with ((rfl | rfl) | rfl) | rfl <;> decide

/-- A value goes on with blanks and then one of the characters of the structure. -/
theorem apart_append {c : Char} (hw : Blank w) (hc : c.isDigit = false ∧ c ≠ '.' ∧ c ≠ 'e' ∧ c ≠ 'E')
    (hr : r.head? = some c) : Apart (w ++ r) := by
  intro d hd
  cases w with
  | nil => rw [List.nil_append, hr] at hd; cases hd; exact hc
  | cons b w =>
    obtain rfl : b = d := Option.some.inj hd
    exact apart_of_blank (hw b List.mem_cons_self)

/-- A value does not begin with a blank or with a bracket that closes. -/
theorem head_value {v : Value} (h : Derives .value t v) :
    ∃ c t', t = c :: t' ∧ isBlank c = false ∧ c ≠ ']' ∧ c ≠ '\x7d' := by
  cases h with
  | number h =>
    obtain ⟨c, t', rfl, hc | rfl⟩ := head_number h
    · refine ⟨c, t', rfl, ?_, ?_, ?_⟩
      · rw [← Bool.not_eq_true]
        intro hblank
        rw [(apart_of_blank hblank).1] at hc
        cases hc
      · rintro rfl
        exact absurd hc (by decide)
      · rintro rfl
        exact absurd hc (by decide)
    · exact ⟨'-', t', rfl, by decide⟩
  | _ => exact ⟨_, _, rfl, by decide⟩

theorem visible_value {v : Value} (h : Derives .value t v) : Visible (t ++ r) := by
  obtain ⟨c, t', rfl, hblank, -, -⟩ := head_value h
  intro d hd
  cases hd
  exact hblank

theorem visible_of_head {c : Char} (hr : r.head? = some c) (hc : isBlank c = false) : Visible r := by
  intro d hd
  rw [hr] at hd
  cases hd
  exact hc

/-- What stands between brackets does not look like nothing. -/
theorem head_part {v : Value} : ∀ {part : Part}, Derives part t v → part ≠ .value → (skip (t ++ r)).head? ≠ some ']' ∧
    (skip (t ++ r)).head? ≠ some '\x7d' := by
  intro part h hpart
  have hhead : ∀ {w t : List Char} {v : Value}, Blank w → Derives .value t v → ∀ u : List Char,
      (skip (w ++ (t ++ u))).head? ≠ some ']' ∧ (skip (w ++ (t ++ u))).head? ≠ some '\x7d' := by
    intro w t v hw h u
    rw [skip_append hw (visible_value h)]
    obtain ⟨c, t', rfl, -, hc⟩ := head_value h
    simpa using hc
  cases h with
  | element hw h _ | elements hw h _ _ => simpa only [List.append_assoc] using hhead hw h _
  | member hw h _ _ _ _ | members hw h _ _ _ _ _ => simpa only [List.append_assoc] using hhead hw h _
  | _ => exact absurd rfl hpart

theorem bracketed_empty {close : Char} {empty : Value} {part : List Char → Option (Value × List Char)} (hw : Blank w)
    (hclose : isBlank close = false) : bracketed close empty part (w ++ [close] ++ r) = some (empty, r) := by
  have hskip : skip (w ++ close :: r) = close :: r :=
    skip_append hw (visible_of_head rfl hclose)
  simp [bracketed, hskip]

theorem bracketed_part {close : Char} {empty v : Value} {part : List Char → Option (Value × List Char)}
    (hhead : (skip (t ++ close :: r)).head? ≠ some close) (hpart : part (t ++ close :: r) = some (v, close :: r)) :
    bracketed close empty part (t ++ [close] ++ r) = some (v, r) := by
  simp [bracketed, hhead, hpart, expect_cons]

theorem enough_succ {P : Nat → Prop} (n : Nat) (h : ∀ m, n ≤ m → P (m + 1)) : ∃ n, ∀ m, n ≤ m → P m := by
  refine ⟨n + 1, fun m hm => ?_⟩
  obtain ⟨m, rfl⟩ := Nat.exists_eq_add_of_le' (Nat.le_trans (Nat.le_add_left 1 n) hm)
  exact h m (by omega)

/-- **What the parser finds**, with enough fuel: what the text at the front is, and the rest. -/
theorem parse_of_derives {part : Part} {v : Value} (h : Derives part t v) : ∀ {r : List Char}, Follows part r →
    ∃ n, ∀ m, n ≤ m → parse m part (t ++ r) = some (v, r) := by
  induction h with
  | null | true | false =>
    intro r _
    refine enough_succ 0 fun m _ => ?_
    simp [parse, expect]
  | number h =>
    intro r hr
    refine enough_succ 0 fun m _ => ?_
    have hread := number_append h hr
    obtain ⟨c, t', rfl, hc⟩ := head_number h
    have hne : c ≠ 'n' ∧ c ≠ 't' ∧ c ≠ 'f' ∧ c ≠ '\"' ∧ c ≠ '[' ∧ c ≠ '\x7b' := by
      refine ⟨?_, ?_, ?_, ?_, ?_, ?_⟩ <;>
      · rintro rfl
        revert hc
        decide
    rw [List.cons_append] at hread ⊢
    simp [parse, hne, hread]
  | @string ts s h =>
    intro r _
    refine enough_succ (ts.length + 1) fun m hm => ?_
    have hread := characters_append (r := r) h (by omega : ts.length < m)
    simp [parse, hread]
  | emptyArray hw | emptyObject hw =>
    intro r _
    refine enough_succ 0 fun m _ => ?_
    simpa [parse] using bracketed_empty hw (by decide)
  | array h ih =>
    intro r _
    obtain ⟨n, hn⟩ := ih (r := ']' :: r) rfl
    refine enough_succ n fun m hm => ?_
    have hhead := (head_part (r := ']' :: r) h (by simp)).1
    simpa [parse] using bracketed_part hhead (hn m (by omega))
  | object h ih =>
    intro r _
    obtain ⟨n, hn⟩ := ih (r := '\x7d' :: r) rfl
    refine enough_succ n fun m hm => ?_
    have hhead := (head_part (r := '\x7d' :: r) h (by simp)).2
    simpa [parse] using bracketed_part hhead (hn m (by omega))
  | @element w t w' v hw h hw' ih =>
    intro r hr
    obtain ⟨n, hn⟩ := ih (apart_append hw' (by decide) hr)
    refine enough_succ n fun m hm => ?_
    have hskip : skip (w' ++ r) = r := skip_append hw' (visible_of_head hr (by decide))
    simp only [List.append_assoc, parse, skip_append hw (visible_value h), hn m (by omega)]
    simp [hskip, show r.head? = _ from hr]
  | @elements w t w' ts v vs hw h hw' hs ih ihs =>
    intro r hr
    obtain ⟨n, hn⟩ := ih (apart_append (r := ',' :: (ts ++ r)) hw' (by decide) rfl)
    obtain ⟨ns, hns⟩ := ihs hr
    refine enough_succ (max n ns) fun m hm => ?_
    have hskip : skip (w' ++ ',' :: (ts ++ r)) = ',' :: (ts ++ r) :=
      skip_append hw' (visible_of_head rfl (by decide))
    simp only [List.append_assoc, List.cons_append, parse, skip_append hw (visible_value h), hn m (by omega)]
    simp [hskip, hns m (by omega), consElement]
  | @member w k w₁ w₂ t w' s v hw hk hw₁ hw₂ h hw' ihk ih =>
    intro r hr
    obtain ⟨nk, hnk⟩ := ihk (apart_append (r := ':' :: (w₂ ++ (t ++ (w' ++ r)))) hw₁ (by decide) rfl)
    obtain ⟨n, hn⟩ := ih (apart_append hw' (by decide) hr)
    refine enough_succ (max nk n) fun m hm => ?_
    have hcolon : skip (w₁ ++ ':' :: (w₂ ++ (t ++ (w' ++ r)))) = ':' :: (w₂ ++ (t ++ (w' ++ r))) :=
      skip_append hw₁ (visible_of_head rfl (by decide))
    have hskip : skip (w' ++ r) = r := skip_append hw' (visible_of_head hr (by decide))
    simp only [List.append_assoc, List.cons_append, parse, skip_append hw (visible_value hk), hnk m (by omega)]
    simp [hcolon, expect_cons, skip_append hw₂ (visible_value h), hn m (by omega), hskip, show r.head? = _ from hr]
  | @members w k w₁ w₂ t w' ts s v ms hw hk hw₁ hw₂ h hw' hs ihk ih ihs =>
    intro r hr
    obtain ⟨nk, hnk⟩ := ihk (apart_append (r := ':' :: (w₂ ++ (t ++ (w' ++ ',' :: (ts ++ r))))) hw₁ (by decide) rfl)
    obtain ⟨n, hn⟩ := ih (apart_append (r := ',' :: (ts ++ r)) hw' (by decide) rfl)
    obtain ⟨ns, hns⟩ := ihs hr
    refine enough_succ (max nk (max n ns)) fun m hm => ?_
    have hcolon : skip (w₁ ++ ':' :: (w₂ ++ (t ++ (w' ++ ',' :: (ts ++ r)))))
        = ':' :: (w₂ ++ (t ++ (w' ++ ',' :: (ts ++ r)))) := skip_append hw₁ (visible_of_head rfl (by decide))
    have hskip : skip (w' ++ ',' :: (ts ++ r)) = ',' :: (ts ++ r) :=
      skip_append hw' (visible_of_head rfl (by decide))
    simp only [List.append_assoc, List.cons_append, parse, skip_append hw (visible_value hk), hnk m (by omega)]
    simp [hcolon, expect_cons, skip_append hw₂ (visible_value h), hn m (by omega), hskip, hns m (by omega), consMember]

/-- **A text is one value.** -/
theorem Text.unique {v v' : Value} (h : Text t v) (h' : Text t v') : v = v' := by
  have hparse : ∀ {v : Value}, Text t v → ∃ n, ∀ m, n ≤ m → (parse m .value (skip t)).map Prod.fst = some v := by
    rintro v ⟨w, t, w', hw, hv, hw', rfl⟩
    have hend : Apart w' := by
      intro c hc
      cases w' with
      | nil => cases hc
      | cons b w' =>
        obtain rfl : b = c := Option.some.inj hc
        exact apart_of_blank (hw' b List.mem_cons_self)
    obtain ⟨n, hn⟩ := parse_of_derives hv hend
    refine ⟨n, fun m hm => ?_⟩
    rw [skip_append hw (visible_value hv), hn m hm]
    rfl
  obtain ⟨n, hn⟩ := hparse h
  obtain ⟨n', hn'⟩ := hparse h'
  exact Option.some.inj ((hn _ (Nat.le_max_left n n')).symm.trans (hn' _ (Nat.le_max_right n n')))

/-! ## Texts that are written -/

theorem blank_nil : Blank [] := by simp [Blank]

theorem blank_space : Blank [' '] := by simp [Blank, isBlank]

theorem Derives.cast {part : Part} {t t' : List Char} {v : Value} (h : Derives part t v) (ht : t = t') :
    Derives part t' v := ht ▸ h

theorem natOf_toDigits (n : Nat) : natOf (Nat.toDigits 10 n) = n := Nat.ofDigitChars_ten_toDigits

theorem digits_toDigits (n : Nat) : Digits (Nat.toDigits 10 n) :=
  ⟨Nat.toDigits_ne_nil, fun _ hd => Nat.isDigit_of_mem_toDigits (by decide) (by decide) hd⟩

/-- Decimals have no leading zero. -/
theorem head_toDigits {n : Nat} (hn : 0 < n) : (Nat.toDigits 10 n).head? ≠ some '0' := by
  induction n using Nat.strongRecOn with
  | ind n ih =>
    rw [Nat.toDigits_eq_if (by decide)]
    split_ifs with hlt
    · have hall : ∀ n < 10, 0 < n → [n.digitChar].head? ≠ some '0' := by decide
      exact hall n hlt hn
    · have hrest := ih (n / 10) (by omega) (by omega)
      cases hdigits : Nat.toDigits 10 (n / 10) with
      | nil => exact absurd hdigits Nat.toDigits_ne_nil
      | cons d ds =>
        rw [hdigits] at hrest
        exact hrest

theorem integer_toDigits (n : Nat) : Integer (Nat.toDigits 10 n) n := by
  rcases Nat.eq_zero_or_pos n with rfl | hn
  · exact .zero
  · have h := Integer.positive (digits_toDigits n) (head_toDigits hn)
    rwa [natOf_toDigits] at h

theorem Derives.nat (n : Nat) : Derives .value (toString n).toList (.number n) := by
  have h := Number.unsigned (integer_toDigits n) .none .none
  rw [add_zero, mul_one, List.append_nil, List.append_nil] at h
  exact (Derives.number h).cast (by simp)

theorem Derives.int (z : Int) : Derives .value (toString z).toList (.number z) := by
  cases z with
  | ofNat n => exact Derives.nat n
  | negSucc n =>
    have h := Number.negative (integer_toDigits (n + 1)) .none .none
    rw [add_zero, mul_one, List.append_nil, List.append_nil] at h
    have hz : ((Int.negSucc n : Int) : ℚ) = -((n + 1 : Nat) : ℚ) := by rw [Int.cast_negSucc]
    rw [hz]
    refine (Derives.number h).cast ?_
    show _ = ("-" ++ (n + 1).repr).toList
    simp

/-- A string, by how each of its characters is written. -/
theorem Derives.encoded {f : Char → List Char} (hf : ∀ c, Character (f c) c) (s : String) :
    Derives .value ('\"' :: (s.toList.flatMap f ++ ['\"'])) (.string s) := by
  have hchars : List.Forall₂ Character (s.toList.map f) s.toList :=
    List.forall₂_map_left_iff.2 (List.forall₂_same.2 fun c _ => hf c)
  exact (Derives.string hchars).cast (by rw [List.flatMap_def])

/-- A string that is written as it is. -/
theorem Derives.plain {s : String} (hs : ∀ c ∈ s.toList, Unescaped c) :
    Derives .value ('\"' :: (s.toList ++ ['\"'])) (.string s) := by
  have hchars : List.Forall₂ Character (s.toList.map fun c => [c]) s.toList :=
    List.forall₂_map_left_iff.2 (List.forall₂_same.2 fun c hc => .unescaped (hs c hc))
  refine (Derives.string hchars).cast ?_
  rw [← List.flatMap_def, List.flatMap_singleton']

/-- Values one after the other, each behind the blanks `w`, and blanks at the end. -/
theorem Derives.elementsOf {w w' : List Char} (hw : Blank w) (hw' : Blank w') : ∀ {items : List (List Char × Value)},
    items ≠ [] → (∀ i ∈ items, Derives .value i.1 i.2) →
    Derives .elements ([','].intercalate (items.map fun i => w ++ i.1) ++ w') (.array (items.map Prod.snd))
  | [], h, _ => absurd rfl h
  | [i], _, h => by
    refine (Derives.element hw (h i List.mem_cons_self) hw').cast ?_
    simp
  | i :: j :: items, _, h => by
    have hne : j :: items ≠ [] := by simp
    have hrest : Derives .elements _ (.array _) := Derives.elementsOf hw hw' hne
      fun k hk => h k (List.mem_cons_of_mem i hk)
    refine (Derives.elements hw (h i List.mem_cons_self) blank_nil hrest).cast ?_
    simp [List.intercalate]

/-- The text of a member, from its name and the text of its value. -/
def memberText (m : String × List Char × Value) : List Char :=
  '\"' :: (m.1.toList ++ '\"' :: ':' :: ' ' :: m.2.1)

/-- A member whose name needs no escapes, and the text of whose value is that value. -/
def Written (m : String × List Char × Value) : Prop :=
  (∀ c ∈ m.1.toList, Unescaped c) ∧ Derives .value m.2.1 m.2.2

theorem Derives.membersOf {w w' : List Char} (hw : Blank w) (hw' : Blank w') :
    ∀ {items : List (String × List Char × Value)}, items ≠ [] →
    (∀ m ∈ items, Written m) →
    Derives .members ([','].intercalate (items.map fun m => w ++ memberText m) ++ w')
      (.object (items.map fun m => (m.1, m.2.2)))
  | [], h, _ => absurd rfl h
  | [m], _, h => by
    obtain ⟨hkey, hvalue⟩ := h m List.mem_cons_self
    refine (Derives.member hw (Derives.plain hkey) blank_nil blank_space hvalue hw').cast ?_
    simp [memberText]
  | m :: m' :: items, _, h => by
    obtain ⟨hkey, hvalue⟩ := h m List.mem_cons_self
    have hne : m' :: items ≠ [] := by simp
    have hrest : Derives .members _ (.object _) := Derives.membersOf hw hw' hne
      fun k hk => h k (List.mem_cons_of_mem m hk)
    refine (Derives.members hw (Derives.plain hkey) blank_nil blank_space hvalue blank_nil hrest).cast ?_
    simp [memberText, List.intercalate]

end Json
