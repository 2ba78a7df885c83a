import ExplicitOde.Proofs.C.Constant
import ExplicitOde.Proofs.C.Syntax

/-!
# Texts that are operands

A text is an operand if it is read as one postfix expression wherever it stands between signs, and
an expression if it is read as one where no operation goes on. What is built of operands by calls,
indices and signs in parentheses is an operand again, whatever the operands are.
-/

namespace ExplicitOde

namespace C

/-- The text is read as one operand, which can stand after any sign and nests as deep as `depth`
says. -/
structure IsOperand (depth : Nat) (text : String) (a : Term) : Prop where
  reads : ∃ ts, Spells Ends text.toList ts ∧ ∀ n, depth ≤ n → Reads (expression n) ts a
  cuts : ∀ rest, Cuts (text.toList ++ rest)

theorem cuts_word {w : String} (h : isIdentifier w = true) (rest : List Char) :
    Cuts (w.toList ++ rest) := by
  unfold isIdentifier at h
  split at h
  · exact absurd h Bool.false_ne_true
  rename_i c cs hcs
  rw [Bool.and_eq_true] at h
  refine ⟨c, by rw [hcs]; rfl, Or.inl (isNameRest_of_isNameStart h.1)⟩

theorem isOperand_name {w : String} (h : isIdentifier w = true) (hw : w ∉ keywords) :
    IsOperand 0 w (.name w) where
  reads := ⟨_, spells_word h, fun _ _ => reads_name hw⟩
  cuts := cuts_word h

theorem isOperand_numeral {cs ending : List Char} (h : Numeral cs)
    (hending : FloatingEnding ending) :
    IsOperand 0 (String.ofList (cs ++ ending)) (.number (String.ofList (cs ++ ending))) where
  reads := by
    rw [String.toList_ofList]
    exact ⟨_, h.spells hending, fun _ _ => reads_number _⟩
  cuts rest := by
    obtain ⟨c, ds, rfl, hc⟩ := h.head
    rw [String.toList_ofList]
    refine ⟨c, rfl, Or.inl ?_⟩
    rw [isNameRest, Char.isAlphanum, hc, Bool.or_true, Bool.true_or]

variable {depth : Nat} {text text' : String} {a b : Term}

theorem IsOperand.mono (h : IsOperand depth text a) {depth' : Nat} (hle : depth ≤ depth') :
    IsOperand depth' text a where
  reads := by
    obtain ⟨ts, hspells, hreads⟩ := h.reads
    exact ⟨ts, hspells, fun n hn => hreads n (Nat.le_trans hle hn)⟩
  cuts := h.cuts

/-- What is in parentheses is an operand. -/
theorem isOperand_parentheses {cs : List Char} {ts : List Token}
    (htext : text.toList = '(' :: (cs ++ [')'])) (hspells : Spells Ends cs ts)
    (h : ∀ n, depth ≤ n → Complete (expression n) ts a) :
    IsOperand depth text a where
  reads := by
    rw [htext]
    exact ⟨_, hspells.parentheses.imp fun _ _ => trivial, fun n hn => reads_parentheses (h n hn)⟩
  cuts rest := by
    rw [htext]
    exact ⟨'(', rfl, Or.inr (Or.inl rfl)⟩

/-- What is read as an expression at some level is so at the next one, whatever that is. -/
theorem complete_expression {ts : List Token}
    (h : ∀ n, depth ≤ n → Complete (choice (expression n)) ts a) :
    ∀ n, depth + 1 ≤ n → Complete (expression n) ts a := by
  intro n hn
  cases n with
  | zero => exact absurd hn (Nat.not_succ_le_zero depth)
  | succ n => exact h n (Nat.le_of_succ_le_succ hn)

/-- The negative of an operand. -/
theorem IsOperand.neg (h : IsOperand depth text a) :
    IsOperand (depth + 1) ("(-" ++ text ++ ")") (.neg a) := by
  obtain ⟨ts, hspells, hreads⟩ := h.reads
  have hminus : Spells Ends ('-' :: text.toList) (.minus :: ts) :=
    (spells_openSign (by decide : ('-', Token.minus) ∈ openSigns)).append hspells
      fun rest _ => h.cuts rest
  have htext : ("(-" ++ text ++ ")").toList = '(' :: (('-' :: text.toList) ++ [')']) := by
    simp [String.toList_append]
  exact isOperand_parentheses htext hminus
    (complete_expression fun n hn => complete_neg (hreads n hn))

/-- Two operands with a sign between them. -/
theorem IsOperand.binary (ha : IsOperand depth text a) (hb : IsOperand depth text' b) {sign : Char}
    (hsign : sign ∈ ['+', '-', '*', '/']) :
    IsOperand (depth + 1) ("(" ++ text ++ sign.toString ++ text' ++ ")") (.binary sign a b) := by
  obtain ⟨ts, hspells, hreads⟩ := ha.reads
  obtain ⟨us, hspells', hreads'⟩ := hb.reads
  have htext : ("(" ++ text ++ sign.toString ++ text' ++ ")").toList =
      '(' :: ((text.toList ++ sign :: text'.toList) ++ [')']) := by
    simp [String.toList_append, Char.toString]
  -- the sign ends the first operand, and the second one makes no longer sign with it
  have hmiddle : ∀ t, (sign, t) ∈ openSigns →
      Spells Ends (text.toList ++ sign :: text'.toList) (ts ++ t :: us) := by
    intro t ht
    have hright : Spells Ends (sign :: text'.toList) (t :: us) :=
      (spells_openSign ht).append hspells' fun rest _ => hb.cuts rest
    refine hspells.append hright fun rest _ => ends_cons ?_
    have hends : ∀ p ∈ openSigns, isNumberRest p.1 = false := by decide
    exact hends _ ht
  simp only [List.mem_cons, List.not_mem_nil, or_false] at hsign
  rcases hsign with rfl | rfl | rfl | rfl
  · exact isOperand_parentheses htext (hmiddle .plus (by decide)) (complete_expression fun n hn =>
      complete_sum (hreads n hn) (hreads' n hn) rfl rfl (by decide))
  · exact isOperand_parentheses htext (hmiddle .minus (by decide)) (complete_expression fun n hn =>
      complete_sum (hreads n hn) (hreads' n hn) rfl rfl (by decide))
  · exact isOperand_parentheses htext (hmiddle .times (by decide)) (complete_expression fun n hn =>
      complete_product (hreads n hn) (hreads' n hn) rfl (by decide))
  · exact isOperand_parentheses htext (hmiddle .slash (by decide)) (complete_expression fun n hn =>
      complete_product (hreads n hn) (hreads' n hn) rfl (by decide))

/-- The arguments of a call. -/
theorem IsOperand.call₁ {f : String} (hf : isIdentifier f = true) (hf' : f ∉ keywords)
    (h : IsOperand depth text a) :
    IsOperand (depth + 1) (f ++ "(" ++ text ++ ")") (.call₁ f a) where
  reads := by
    obtain ⟨ts, hspells, hreads⟩ := h.reads
    have htext :
        (f ++ "(" ++ text ++ ")").toList = f.toList ++ ('(' :: (text.toList ++ [')'])) := by
      simp [String.toList_append]
    rw [htext]
    refine ⟨_, (spells_word hf).append (hspells.parentheses.imp fun _ _ => trivial)
      fun _ _ => ends_cons rfl, fun n hn => ?_⟩
    exact reads_call₁ hf' (complete_expression (fun m hm => (hreads m hm).complete) n hn)
  cuts rest := by
    have htext : (f ++ "(" ++ text ++ ")").toList ++ rest =
        f.toList ++ ('(' :: (text.toList ++ ')' :: rest)) := by
      simp [String.toList_append]
    rw [htext]
    exact cuts_word hf _

theorem IsOperand.call₂ {f : String} (hf : isIdentifier f = true) (hf' : f ∉ keywords)
    (ha : IsOperand depth text a) (hb : IsOperand depth text' b) :
    IsOperand (depth + 1) (f ++ "(" ++ text ++ "," ++ text' ++ ")") (.call₂ f a b) where
  reads := by
    obtain ⟨ts, hspells, hreads⟩ := ha.reads
    obtain ⟨us, hspells', hreads'⟩ := hb.reads
    have htext : (f ++ "(" ++ text ++ "," ++ text' ++ ")").toList =
        f.toList ++ ('(' :: ((text.toList ++ ',' :: text'.toList) ++ [')'])) := by
      simp [String.toList_append]
    have hmiddle : Spells Ends (text.toList ++ ',' :: text'.toList) (ts ++ .comma :: us) :=
      hspells.append ((spells_closedSign (by decide : (',', Token.comma) ∈ closedSigns)).append
        hspells' fun _ _ => trivial) fun _ _ => ends_cons rfl
    rw [htext]
    refine ⟨_, (spells_word hf).append (hmiddle.parentheses.imp fun _ _ => trivial)
      fun _ _ => ends_cons rfl, fun n hn => ?_⟩
    have hread := reads_call₂ hf' (complete_expression (fun m hm => (hreads m hm).complete) n hn)
      (complete_expression (fun m hm => (hreads' m hm).complete) n hn)
    simp only [List.append_assoc, List.cons_append] at hread ⊢
    exact hread
  cuts rest := by
    have htext : (f ++ "(" ++ text ++ "," ++ text' ++ ")").toList ++ rest =
        f.toList ++ ('(' :: (text.toList ++ ',' :: (text'.toList ++ ')' :: rest))) := by
      simp [String.toList_append]
    rw [htext]
    exact cuts_word hf _

/-- An element of a block. -/
theorem IsOperand.index {w : String} (hw : isIdentifier w = true) (hw' : w ∉ keywords)
    (h : IsOperand depth text a) :
    IsOperand (depth + 1) (w ++ "[" ++ text ++ "]") (.index (.name w) a) where
  reads := by
    obtain ⟨ts, hspells, hreads⟩ := h.reads
    have htext :
        (w ++ "[" ++ text ++ "]").toList = w.toList ++ ('[' :: (text.toList ++ [']'])) := by
      simp [String.toList_append]
    rw [htext]
    refine ⟨_, (spells_word hw).append (hspells.brackets.imp fun _ _ => trivial)
      fun _ _ => ends_cons rfl, fun n hn => ?_⟩
    exact reads_index hw' (complete_expression (fun m hm => (hreads m hm).complete) n hn)
  cuts rest := by
    have htext : (w ++ "[" ++ text ++ "]").toList ++ rest =
        w.toList ++ ('[' :: (text.toList ++ ']' :: rest)) := by
      simp [String.toList_append]
    rw [htext]
    exact cuts_word hw _

/-- An element of a block to which an element of an array points. -/
theorem IsOperand.index₂ {w : String} (hw : isIdentifier w = true) (hw' : w ∉ keywords)
    (ha : IsOperand depth text a) (hb : IsOperand depth text' b) :
    IsOperand (depth + 1) (w ++ "[" ++ text ++ "][" ++ text' ++ "]")
      (.index (.index (.name w) a) b) where
  reads := by
    obtain ⟨ts, hspells, hreads⟩ := ha.reads
    obtain ⟨us, hspells', hreads'⟩ := hb.reads
    have htext : (w ++ "[" ++ text ++ "][" ++ text' ++ "]").toList =
        w.toList ++ (('[' :: (text.toList ++ [']'])) ++ '[' :: (text'.toList ++ [']'])) := by
      simp [String.toList_append]
    rw [htext]
    refine ⟨_, (spells_word hw).append ((hspells.brackets.append hspells'.brackets
      fun _ _ => trivial).imp fun _ _ => trivial) fun _ _ => ends_cons rfl, fun n hn => ?_⟩
    have hread := reads_index₂ hw' (complete_expression (fun m hm => (hreads m hm).complete) n hn)
      (complete_expression (fun m hm => (hreads' m hm).complete) n hn)
    simp only [List.append_assoc, List.cons_append] at hread ⊢
    exact hread
  cuts rest := by
    have htext : (w ++ "[" ++ text ++ "][" ++ text' ++ "]").toList ++ rest =
        w.toList ++ ('[' :: (text.toList ++ ']' :: '[' :: (text'.toList ++ ']' :: rest))) := by
      simp [String.toList_append]
    rw [htext]
    exact cuts_word hw _

/-- The text is read as one expression, if no operation goes on after it. -/
structure IsExpression (depth : Nat) (text : String) (a : Term) : Prop where
  reads : ∃ ts, Spells Ends text.toList ts ∧ ∀ n, depth ≤ n → Complete (expression n) ts a
  cuts : ∀ rest, Cuts (text.toList ++ rest)

theorem IsOperand.isExpression (h : IsOperand depth text a) : IsExpression (depth + 1) text a where
  reads := by
    obtain ⟨ts, hspells, hreads⟩ := h.reads
    exact ⟨ts, hspells, complete_expression fun n hn => (hreads n hn).complete⟩
  cuts := h.cuts

theorem IsExpression.mono (h : IsExpression depth text a) {depth' : Nat}
    (hle : depth ≤ depth') : IsExpression depth' text a where
  reads := by
    obtain ⟨ts, hspells, hreads⟩ := h.reads
    exact ⟨ts, hspells, fun n hn => hreads n (Nat.le_trans hle hn)⟩
  cuts := h.cuts

/-- A choice between two expressions. -/
theorem IsOperand.conditional {condition : String} {c : Term} (hc : IsOperand depth condition c)
    (ha : IsExpression depth text a) (hb : IsExpression depth text' b) :
    IsExpression (depth + 1) (condition ++ " ? " ++ text ++ " : " ++ text')
      (.conditional c a b) where
  reads := by
    obtain ⟨ts, hspells, hreads⟩ := hc.reads
    obtain ⟨us, hspells', hreads'⟩ := ha.reads
    obtain ⟨vs, hspells'', hreads''⟩ := hb.reads
    have htext : (condition ++ " ? " ++ text ++ " : " ++ text').toList =
        condition.toList ++
          (' ' :: '?' :: ' ' :: (text.toList ++ (' ' :: ':' :: ' ' :: text'.toList))) := by
      simp [String.toList_append]
    have hspace : Spells Anything [' '] [] := spells_space rfl
    -- put together from the end; a blank ends whatever stands before it
    have hcolon : Spells Ends (' ' :: ':' :: ' ' :: text'.toList) (.colon :: vs) :=
      hspace.append ((spells_openSign (by decide : (':', Token.colon) ∈ openSigns)).append
        (hspace.append hspells'' fun _ _ => trivial) fun _ _ => ⟨' ', rfl, Or.inr (Or.inr rfl)⟩)
        fun _ _ => trivial
    have hquestion : Spells Ends
        (' ' :: '?' :: ' ' :: (text.toList ++ (' ' :: ':' :: ' ' :: text'.toList)))
        (.question :: (us ++ .colon :: vs)) :=
      hspace.append ((spells_closedSign (by decide : ('?', Token.question) ∈ closedSigns)).append
        (hspace.append (hspells'.append hcolon fun _ _ => ends_cons rfl) fun _ _ => trivial)
        fun _ _ => trivial) fun _ _ => trivial
    rw [htext]
    refine ⟨_, hspells.append hquestion fun _ _ => ends_cons rfl, ?_⟩
    exact complete_expression fun n hn =>
      complete_conditional (hreads n hn) (hreads' n hn) (hreads'' n hn)
  cuts rest := by
    have htext : (condition ++ " ? " ++ text ++ " : " ++ text').toList ++ rest =
        condition.toList ++ (" ? " ++ text ++ " : " ++ text').toList ++ rest := by
      simp [String.toList_append]
    rw [htext, List.append_assoc]
    exact hc.cuts _

end C

end ExplicitOde
