import ExplicitOde.Decimal.Basic
import ExplicitOde.Proofs.C.Token

/-!
# Numerals by their parts

A numeral is digits, with a point before, among or behind them or with none, and an exponent or
none. Its number is that of the digits, moved by the exponent and by the digits behind the point:
`Denotes`.

**A text is read as the number that it denotes, and as none if it denotes none**:
`read_eq_some_iff`.
-/

namespace ExplicitOde

open C (Digits takeWhile_run)

namespace Decimal

/-- The text is an exponent of this value, or there is none. -/
inductive DenotesExponent : List Char → Int → Prop where
  | none : DenotesExponent [] 0
  | positive {letter : Char} {sign digits : List Char} (hletter : letter ∈ ['e', 'E'])
      (hsign : sign ∈ [[], ['+']]) (hdigits : Digits digits) :
      DenotesExponent (letter :: (sign ++ digits)) (digitsValue digits)
  | negative {letter : Char} {digits : List Char} (hletter : letter ∈ ['e', 'E'])
      (hdigits : Digits digits) :
      DenotesExponent (letter :: '-' :: digits) (-(digitsValue digits : Int))

/-- The text is a numeral of this number. -/
inductive Denotes : List Char → Decimal → Prop where
  | whole {whole exponent : List Char} {e : Int} (hwhole : Digits whole)
      (hexponent : DenotesExponent exponent e) : Denotes (whole ++ exponent) ⟨digitsValue whole, e⟩
  | point {whole fraction exponent : List Char} {e : Int} (hdigits : Digits (whole ++ fraction))
      (hexponent : DenotesExponent exponent e) :
      Denotes (whole ++ '.' :: (fraction ++ exponent))
        ⟨digitsValue (whole ++ fraction), e - fraction.length⟩

variable {cs : List Char}

/-! ## Exponents -/

theorem isLetter_iff {c : Char} : (c == 'e' || c == 'E') = true ↔ c ∈ ['e', 'E'] := by simp

/-- A row of digits is what the reader asks for behind the sign of an exponent. -/
theorem digits_iff {digits : List Char} :
    (digits.isEmpty || !digits.all Char.isDigit) = false ↔ Digits digits := by
  simp [Digits]

theorem DenotesExponent.read {k : Int} (h : DenotesExponent cs k) : readExponent cs = some k := by
  cases h with
  | none => rfl
  | @positive letter sign digits hletter hsign hdigits =>
      have hread := digits_iff.mpr hdigits
      have hletter' := isLetter_iff.mpr hletter
      obtain rfl | rfl : sign = [] ∨ sign = ['+'] := by simpa using hsign
      · obtain ⟨d, ds, rfl⟩ := List.exists_cons_of_ne_nil hdigits.1
        have hsign : ∀ c, c.isDigit = false → ∀ rest, d :: ds ≠ c :: rest := by
          intro c hc rest heq
          rw [← (List.cons.inj heq).1, hdigits.2 d List.mem_cons_self] at hc
          exact Bool.noConfusion hc
        rw [List.nil_append, readExponent, if_pos hletter', hread]
        · rfl
        · exact hsign '+' rfl
        · exact hsign '-' rfl
      · rw [List.singleton_append, readExponent, if_pos hletter', hread]
        rfl
  | @negative letter digits hletter hdigits =>
      rw [readExponent, if_pos (isLetter_iff.mpr hletter), digits_iff.mpr hdigits]
      rfl

theorem denotesExponent_of_read {k : Int} (h : readExponent cs = some k) :
    DenotesExponent cs k := by
  cases cs with
  | nil => exact Option.some.inj h ▸ .none
  | cons letter rest =>
      by_cases hletter : (letter == 'e' || letter == 'E') = true
      · have hmem := isLetter_iff.mp hletter
        have hdigits : ∀ {digits : List Char} {value : Option Int},
            (if digits.isEmpty || !digits.all Char.isDigit then none else value) = some k →
              Digits digits ∧ value = some k := by
          intro digits value h
          split_ifs at h with hbad
          exact ⟨digits_iff.mp (Bool.not_eq_true _ ▸ hbad), h⟩
        -- the sign is told by the first character behind the letter
        by_cases hplus : ∃ digits, rest = '+' :: digits
        · obtain ⟨digits, rfl⟩ := hplus
          rw [readExponent, if_pos hletter] at h
          obtain ⟨hdigits, hvalue⟩ := hdigits h
          have hsign : ['+'] ∈ [[], ['+']] := by decide
          exact Option.some.inj hvalue ▸ .positive hmem hsign hdigits
        by_cases hminus : ∃ digits, rest = '-' :: digits
        · obtain ⟨digits, rfl⟩ := hminus
          rw [readExponent, if_pos hletter] at h
          obtain ⟨hdigits, hvalue⟩ := hdigits h
          exact Option.some.inj hvalue ▸ .negative hmem hdigits
        · rw [readExponent, if_pos hletter] at h
          · obtain ⟨hdigits, hvalue⟩ := hdigits h
            have hsign : [] ∈ [[], ['+']] := by decide
            exact Option.some.inj hvalue ▸ .positive hmem hsign hdigits
          · exact fun digits hrest => hplus ⟨digits, hrest⟩
          · exact fun digits hrest => hminus ⟨digits, hrest⟩
      · unfold readExponent at h
        dsimp only at h
        rw [if_neg hletter] at h
        cases h

/-- An exponent begins with no digit and no point. -/
theorem DenotesExponent.head {k : Int} (h : DenotesExponent cs k) :
    ∀ c ∈ cs.head?, c.isDigit = false ∧ c ≠ '.' := by
  have hletters : ∀ c ∈ ['e', 'E'], c.isDigit = false ∧ c ≠ '.' := by simp [Char.isDigit]
  intro c hc
  cases h with
  | none => exact nomatch hc
  | positive hletter | negative hletter => exact Option.some.inj hc ▸ hletters _ hletter

/-! ## Numerals -/

theorem Denotes.read {d : Decimal} (h : Denotes cs d) : Decimal.read cs = some d := by
  cases h with
  | @whole whole exponent e hwhole hexponent =>
      obtain ⟨htake, hdrop⟩ :=
        takeWhile_run hwhole.2 fun c hc => (hexponent.head c hc).1
      have hempty : whole.isEmpty = false := List.isEmpty_eq_false_iff.mpr hwhole.1
      unfold Decimal.read
      rw [htake, hdrop]
      dsimp only
      split
      · -- what follows the digits does not begin with a point
        exact absurd rfl (hexponent.head '.' rfl).2
      · simp [hempty, hexponent.read]
  | @point whole fraction exponent e hdigits hexponent =>
      obtain ⟨hwhole, hfraction⟩ := List.forall_mem_append.mp hdigits.2
      have hpoint : ∀ c ∈ ('.' :: (fraction ++ exponent)).head?, c.isDigit = false := by
        simp [Char.isDigit]
      obtain ⟨htake, hdrop⟩ := takeWhile_run hwhole hpoint
      obtain ⟨htake', hdrop'⟩ :=
        takeWhile_run hfraction fun c hc => (hexponent.head c hc).1
      have hempty : (whole.isEmpty && fraction.isEmpty) = false := by
        rw [← Bool.not_eq_true, Bool.and_eq_true, List.isEmpty_iff, List.isEmpty_iff]
        rintro ⟨rfl, rfl⟩
        exact hdigits.1 rfl
      unfold Decimal.read
      rw [htake, hdrop]
      simp only [htake', hdrop', hempty]
      rw [hexponent.read]
      rfl

theorem denotes_of_read {d : Decimal} (h : Decimal.read cs = some d) : Denotes cs d := by
  have hdigits : ∀ text : List Char, ∀ c ∈ text.takeWhile Char.isDigit, c.isDigit = true :=
    fun _ _ hc => List.mem_takeWhile_imp hc
  have hsplit := (List.takeWhile_append_dropWhile (p := Char.isDigit) (l := cs)).symm
  unfold Decimal.read at h
  dsimp only at h
  -- with a point behind the first digits, and without
  split at h
  · rename_i tail hpoint
    have hsplit' := (List.takeWhile_append_dropWhile (p := Char.isDigit) (l := tail)).symm
    split_ifs at h with hempty
    obtain ⟨e, he, rfl⟩ := Option.map_eq_some_iff.mp h
    have hdenotes : Denotes (cs.takeWhile Char.isDigit ++
        '.' :: (tail.takeWhile Char.isDigit ++ tail.dropWhile Char.isDigit))
        ⟨digitsValue (cs.takeWhile Char.isDigit ++ tail.takeWhile Char.isDigit),
          e - (tail.takeWhile Char.isDigit).length⟩ := by
      refine .point ⟨fun hnone => hempty ?_, ?_⟩ (denotesExponent_of_read he)
      · obtain ⟨hnone, hnone'⟩ := List.append_eq_nil_iff.mp hnone
        rw [hnone, hnone']
        rfl
      · exact List.forall_mem_append.mpr ⟨hdigits cs, hdigits tail⟩
    rwa [← hsplit', ← hpoint, ← hsplit] at hdenotes
  · split_ifs at h with hempty
    obtain ⟨e, he, rfl⟩ := Option.map_eq_some_iff.mp h
    have hdenotes : Denotes (cs.takeWhile Char.isDigit ++ cs.dropWhile Char.isDigit)
        ⟨digitsValue (cs.takeWhile Char.isDigit), e⟩ := by
      refine .whole ⟨fun hnone => hempty ?_, hdigits cs⟩ (denotesExponent_of_read he)
      rw [hnone]
      rfl
    rw [← hsplit] at hdenotes
    simpa using hdenotes

/-- **A text is read as the number that it denotes**, if it denotes one. -/
theorem read_eq_some_iff {d : Decimal} : Decimal.read cs = some d ↔ Denotes cs d :=
  ⟨denotes_of_read, Denotes.read⟩

/-- A text that denotes no number is refused. -/
theorem read_eq_none_iff : Decimal.read cs = none ↔ ∀ d, ¬Denotes cs d := by
  simp only [← read_eq_some_iff, Option.eq_none_iff_forall_ne_some, ne_eq]

end Decimal

end ExplicitOde
