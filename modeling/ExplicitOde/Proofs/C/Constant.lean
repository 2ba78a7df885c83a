import ExplicitOde.Proofs.C.Token
import ExplicitOde.Decimal.Basic

/-!
# Constants of C

Not every number is a constant: `1.2.3` and `0x` are tokens, but no constants. Integer constants
that begin with zero are octal. A floating constant has a point or an exponent.
-/

namespace ExplicitOde

namespace C

/-- The value of a decimal integer constant, or of the octal constant zero. -/
def integer? (cs : List Char) : Option Nat :=
  if cs = ['0'] ∨ (cs.all Char.isDigit = true ∧ cs.head?.any (· != '0') = true) then
    some (Nat.ofDigitChars 10 cs 0)
  else none

/-- The suffix of a floating constant, which may be absent. -/
def isSuffix (cs : List Char) : Bool :=
  cs.isEmpty || cs == ['f'] || cs == ['F'] || cs == ['l'] || cs == ['L']

/-- A row of digits and a suffix. -/
def isDigitsSuffix (cs : List Char) : Bool :=
  !(cs.takeWhile Char.isDigit).isEmpty && isSuffix (cs.dropWhile Char.isDigit)

/-- What follows the sign of an exponent, which may be absent. -/
def dropSign : List Char → List Char
  | [] => []
  | c :: cs => if c == '+' || c == '-' then cs else c :: cs

/-- The exponent of a floating constant, and a suffix. -/
def isExponentSuffix : List Char → Bool
  | [] => false
  | e :: cs => (e == 'e' || e == 'E') && isDigitsSuffix (dropSign cs)

/-- The text is a decimal floating constant. -/
def isFloating (cs : List Char) : Bool :=
  let whole := cs.takeWhile Char.isDigit
  match cs.dropWhile Char.isDigit with
  | '.' :: rest =>
    let fraction := rest.takeWhile Char.isDigit
    let after := rest.dropWhile Char.isDigit
    (!whole.isEmpty || !fraction.isEmpty) && (isSuffix after || isExponentSuffix after)
  | after => !whole.isEmpty && isExponentSuffix after

/-! ## The constants that are written -/

theorem digits_toDigits (n : Nat) : Digits (Nat.toDigits 10 n) :=
  ⟨Nat.toDigits_ne_nil, fun _ hc => Nat.isDigit_of_mem_toDigits (by omega) (by omega) hc⟩

/-- Positive numbers are written without a leading zero. -/
theorem head_toDigits : ∀ n : Nat, 0 < n →
    (Nat.toDigits 10 n).head?.any (· != '0') = true := by
  intro n
  induction n using Nat.strongRecOn with
  | ind n ih =>
      intro hn
      by_cases hlt : n < 10
      · rw [Nat.toDigits_of_lt_base hlt]
        have hdigit : ∀ d : Fin 10, d.val ≠ 0 → (d.val.digitChar != '0') = true := by decide
        exact hdigit ⟨n, hlt⟩ (Nat.ne_of_gt hn)
      · rw [Nat.toDigits_of_base_le (by omega) (by omega)]
        obtain ⟨c, hc, hne⟩ := (Option.any_eq_true _ _).mp (ih (n / 10) (by omega) (by omega))
        rw [List.head?_append, hc]
        exact hne

/-- What is written for a number is an integer constant with its value. -/
theorem integer?_toDigits (n : Nat) : integer? (Nat.toDigits 10 n) = some n := by
  have hdecimal : Nat.toDigits 10 n = ['0'] ∨ ((Nat.toDigits 10 n).all Char.isDigit = true ∧
      (Nat.toDigits 10 n).head?.any (· != '0') = true) := by
    rcases Nat.eq_zero_or_pos n with rfl | hn
    · exact Or.inl (Nat.toDigits_zero 10)
    · exact Or.inr ⟨List.all_eq_true.mpr (digits_toDigits n).2, head_toDigits n hn⟩
  rw [integer?, if_pos hdecimal, Nat.ofDigitChars_ten_toDigits]

/-- An exponent part, or nothing. -/
def ExponentPart (cs : List Char) : Prop :=
  cs = [] ∨ ∃ sign ds, cs = 'e' :: (sign ++ ds) ∧ (sign = [] ∨ sign = ['-']) ∧ Digits ds

/-- A decimal numeral with a point or an exponent: digits, more digits after a point, and an
exponent. -/
inductive Numeral : List Char → Prop where
  | point {whole fraction tail : List Char} (hwhole : Digits whole) (hfraction : Digits fraction)
      (htail : ExponentPart tail) : Numeral (whole ++ '.' :: (fraction ++ tail))
  | exponent {whole tail : List Char} (hwhole : Digits whole) (htail : ExponentPart tail)
      (hne : tail ≠ []) : Numeral (whole ++ tail)

/-- What is written after a numeral: nothing, or the letter of single precision. -/
def FloatingEnding (cs : List Char) : Prop := cs = [] ∨ cs = ['f']

theorem FloatingEnding.head {cs : List Char} (h : FloatingEnding cs) :
    ∀ c ∈ cs.head?, c.isDigit = false := by
  rcases h with rfl | rfl
  · exact fun c hc => absurd hc (by simp)
  · intro c hc
    rw [List.head?_cons, Option.mem_some_iff] at hc
    exact hc ▸ rfl

theorem FloatingEnding.isSuffix {cs : List Char} (h : FloatingEnding cs) : isSuffix cs = true := by
  rcases h with rfl | rfl <;> rfl

theorem Digits.isEmpty {ds : List Char} (h : Digits ds) : ds.isEmpty = false := by
  cases ds with
  | nil => exact absurd rfl h.1
  | cons => rfl

theorem Digits.isDigitsSuffix {ds ending : List Char} (h : Digits ds)
    (hending : FloatingEnding ending) : isDigitsSuffix (ds ++ ending) = true := by
  obtain ⟨htake, hdrop⟩ := takeWhile_run h.2 hending.head
  rw [C.isDigitsSuffix, htake, hdrop, h.isEmpty, hending.isSuffix]
  rfl

/-- After the digits of a numeral comes its exponent or its end, which is no digit. -/
theorem ExponentPart.head {tail ending : List Char} (h : ExponentPart tail)
    (hending : FloatingEnding ending) : ∀ c ∈ (tail ++ ending).head?, c.isDigit = false := by
  rcases h with rfl | ⟨sign, ds, rfl, _⟩
  · exact hending.head
  · intro c hc
    rw [List.cons_append, List.head?_cons, Option.mem_some_iff] at hc
    exact hc ▸ rfl

theorem ExponentPart.isExponentSuffix {tail ending : List Char} (h : ExponentPart tail)
    (hne : tail ≠ []) (hending : FloatingEnding ending) :
    isExponentSuffix (tail ++ ending) = true := by
  rcases h with rfl | ⟨sign, ds, rfl, hsign, hds⟩
  · exact absurd rfl hne
  have hdrop : dropSign (sign ++ ds ++ ending) = ds ++ ending := by
    rcases hsign with rfl | rfl
    · cases ds with
      | nil => exact absurd rfl hds.1
      | cons d ds =>
          have hd := hds.2 d List.mem_cons_self
          have hplus : (d == '+') = false := beq_false_of_ne fun h => absurd (h ▸ hd) (by decide)
          have hminus : (d == '-') = false := beq_false_of_ne fun h => absurd (h ▸ hd) (by decide)
          rw [List.nil_append, List.cons_append, dropSign, hplus, hminus, Bool.or_false,
            if_neg Bool.false_ne_true]
    · rfl
  rw [List.cons_append, C.isExponentSuffix, hdrop, hds.isDigitsSuffix hending]
  rfl

/-- A numeral is a floating constant, with or without the letter of single precision. -/
theorem Numeral.isFloating {cs ending : List Char} (h : Numeral cs)
    (hending : FloatingEnding ending) : isFloating (cs ++ ending) = true := by
  cases h with
  | @point whole fraction tail hwhole hfraction htail =>
      have hpoint : ∀ c ∈ ('.' :: (fraction ++ tail ++ ending)).head?, c.isDigit = false := by
        intro c hc
        rw [List.head?_cons, Option.mem_some_iff] at hc
        exact hc ▸ rfl
      obtain ⟨htake, hdrop⟩ := takeWhile_run hwhole.2 hpoint
      -- the digits end at the point, and after it at the exponent or the suffix
      obtain ⟨htake', hdrop'⟩ := takeWhile_run hfraction.2 (htail.head hending)
      rw [List.append_assoc, List.cons_append, C.isFloating, htake, hdrop]
      show ((!whole.isEmpty || !((fraction ++ tail ++ ending).takeWhile Char.isDigit).isEmpty) &&
        (isSuffix ((fraction ++ tail ++ ending).dropWhile Char.isDigit) ||
          isExponentSuffix ((fraction ++ tail ++ ending).dropWhile Char.isDigit))) = true
      rw [List.append_assoc, htake', hdrop', hwhole.isEmpty, Bool.not_false, Bool.true_or,
        Bool.true_and, Bool.or_eq_true]
      by_cases hne : tail = []
      · rw [hne]
        exact Or.inl hending.isSuffix
      · exact Or.inr (htail.isExponentSuffix hne hending)
  | @exponent whole tail hwhole htail hne =>
      obtain ⟨htake, hdrop⟩ := takeWhile_run hwhole.2 (htail.head hending)
      have hexponent := htail.isExponentSuffix hne hending
      rcases htail with rfl | ⟨sign, ds, rfl, _⟩
      · exact absurd rfl hne
      rw [List.append_assoc, C.isFloating, htake, hdrop]
      show (!whole.isEmpty && isExponentSuffix ('e' :: (sign ++ ds) ++ ending)) = true
      rw [hwhole.isEmpty, Bool.not_false, Bool.true_and]
      exact hexponent

/-- A numeral has a point or an exponent, so that it is no integer constant. -/
theorem Numeral.integer? {cs : List Char} (h : Numeral cs) (ending : List Char) :
    C.integer? (cs ++ ending) = none := by
  have hmark : ∃ c ∈ cs, c.isDigit = false := by
    cases h with
    | @point whole fraction tail hwhole hfraction htail =>
        exact ⟨'.', List.mem_append_right whole List.mem_cons_self, rfl⟩
    | @exponent whole tail hwhole htail hne =>
        rcases htail with rfl | ⟨sign, ds, rfl, _⟩
        · exact absurd rfl hne
        · exact ⟨'e', List.mem_append_right whole List.mem_cons_self, rfl⟩
  obtain ⟨c, hc, hdigit⟩ := hmark
  have hmem : c ∈ cs ++ ending := List.mem_append_left ending hc
  rw [C.integer?, if_neg]
  rintro (hzero | ⟨hall, _⟩)
  · rw [hzero, List.mem_singleton] at hmem
    exact absurd (hmem ▸ hdigit) (by decide)
  · rw [List.all_eq_true.mp hall c hmem] at hdigit
    exact Bool.noConfusion hdigit

/-- A numeral is one number. -/
theorem Numeral.runs {cs ending : List Char} (h : Numeral cs) (hending : FloatingEnding ending) :
    Runs false (cs ++ ending) false := by
  have hend : Runs false ending false := by
    rcases hending with rfl | rfl
    · exact fun _ => rfl
    · exact runs_cons rfl false
  have htail : ∀ {tail : List Char}, ExponentPart tail → Runs false tail false := by
    rintro tail (rfl | ⟨sign, ds, rfl, rfl | rfl, hds⟩)
    · exact fun _ => rfl
    · exact (runs_cons (c := 'e') rfl false).append (hds.runs true)
    · exact ((runs_cons (c := 'e') rfl false).append runs_minus).append (hds.runs false)
  cases h with
  | @point whole fraction tail hwhole hfraction ht =>
      have hpoint : Runs false ['.'] false := runs_cons rfl false
      exact ((hwhole.runs false).append
        (hpoint.append ((hfraction.runs false).append (htail ht)))).append hend
  | exponent hwhole ht _ => exact ((hwhole.runs false).append (htail ht)).append hend

/-- A numeral begins with a digit. -/
theorem Numeral.head {cs : List Char} (h : Numeral cs) :
    ∃ c ds, cs = c :: ds ∧ c.isDigit = true := by
  have hdigits : ∀ {whole : List Char} (rest : List Char), Digits whole →
      ∃ c ds, whole ++ rest = c :: ds ∧ c.isDigit = true := by
    intro whole rest hwhole
    cases whole with
    | nil => exact absurd rfl hwhole.1
    | cons c ds => exact ⟨c, ds ++ rest, rfl, hwhole.2 c List.mem_cons_self⟩
  cases h with
  | point hwhole _ _ => exact hdigits _ hwhole
  | exponent hwhole _ _ => exact hdigits _ hwhole

/-- A numeral is read as one number. -/
theorem Numeral.spells {cs ending : List Char} (h : Numeral cs) (hending : FloatingEnding ending) :
    Spells Ends (cs ++ ending) [.number (String.ofList (cs ++ ending))] := by
  have hruns := h.runs hending
  obtain ⟨c, ds, rfl, hc⟩ := h.head
  exact fun rest hrest => lex_number hc hruns hrest

/-- An integer is read as one number. -/
theorem spells_toDigits (n : Nat) :
    Spells Ends (Nat.toDigits 10 n) [.number (String.ofList (Nat.toDigits 10 n))] := by
  have hdigits := digits_toDigits n
  have hruns := hdigits.runs false
  cases hcs : Nat.toDigits 10 n with
  | nil => exact absurd hcs hdigits.1
  | cons c cs =>
      rw [hcs] at hdigits hruns
      exact fun rest hrest => lex_number (hdigits.2 c List.mem_cons_self) hruns hrest

end C

end ExplicitOde
