import ExplicitOde.Expr.Build
import ExplicitOde.Expr.Value
import ExplicitOde.Proofs.Expr.Order

/-!
# The symbols of an expression

An expression is over a set of symbols if all its symbols are in it. Its value depends on no other
symbols, whatever constants and operations mean.

New symbols have identities that follow each other.
-/

namespace ExplicitOde

variable {α β : Type}

namespace Expr

/-- All symbols of the expression have an identity as `P` says. -/
def Over (P : Nat → Prop) : Expr α → Prop
  | const _ _ => True
  | symbol id _ => P id
  | unary _ _ a => a.Over P
  | binary _ _ a b => a.Over P ∧ b.Over P

/-- The symbols of an expression are those below it. -/
theorem over_iff {P : Nat → Prop} {e : Expr α} :
    e.Over P ↔ ∀ x, e.Reaches x → x.isSymbol = true → P x.id := by
  constructor
  · intro h x hreach
    induction hreach with
    | self e =>
        intro hsymbol
        cases e with
        | symbol id name => exact h
        | const | unary | binary => exact Bool.noConfusion hsymbol
    | @through e a x hop _ ih =>
        refine ih ?_
        cases e with
        | const | symbol => exact absurd hop List.not_mem_nil
        | unary id op b =>
            rw [operands, List.mem_singleton] at hop
            exact hop ▸ h
        | binary id op b c =>
            simp only [operands, List.mem_cons, List.not_mem_nil, or_false] at hop
            rcases hop with rfl | rfl
            · exact h.1
            · exact h.2
  · intro h
    induction e with
    | const => trivial
    | symbol id name => exact h _ (.self _) rfl
    | unary id op a iha =>
        exact iha fun x hreach => h x (.through (by simp [operands]) hreach)
    | binary id op a b iha ihb =>
        exact ⟨iha fun x hreach => h x (.through (by simp [operands]) hreach),
          ihb fun x hreach => h x (.through (by simp [operands]) hreach)⟩

theorem Over.imp {P Q : Nat → Prop} {e : Expr α} (h : e.Over P) (hPQ : ∀ i, P i → Q i) :
    e.Over Q :=
  over_iff.mpr fun x hreach hsymbol => hPQ x.id (over_iff.mp h x hreach hsymbol)

/-- The symbol of an identity is below the expression. -/
def Mentions (e : Expr α) (i : Nat) : Prop := ∃ x, e.Reaches x ∧ x.isSymbol = true ∧ x.id = i

theorem over_iff_mentions {P : Nat → Prop} {e : Expr α} :
    e.Over P ↔ ∀ i, e.Mentions i → P i := by
  rw [over_iff]
  constructor
  · rintro h _ ⟨x, hreach, hsymbol, rfl⟩
    exact h x hreach hsymbol
  · exact fun h x hreach hsymbol => h x.id ⟨x, hreach, hsymbol, rfl⟩

theorem over_mentions (e : Expr α) : e.Over e.Mentions := over_iff_mentions.mpr fun _ h => h

theorem Mentions.of_reaches {e x : Expr α} {i : Nat} (h : x.Mentions i) (hreach : e.Reaches x) :
    e.Mentions i := by
  induction hreach with
  | self => exact h
  | through hop _ ih =>
      obtain ⟨y, hy, hsymbol, hid⟩ := ih h
      exact ⟨y, .through hop hy, hsymbol, hid⟩

theorem mentions_symbol (id : Nat) (name : String) : (symbol id name : Expr α).Mentions id :=
  ⟨_, .self _, rfl, rfl⟩

/-- **The value depends on the symbols of the expression only.** -/
theorem value_congr {meaning : Interpretation α β} {s t : Nat → β} {e : Expr α}
    (h : e.Over fun i => s i = t i) : e.value meaning s = e.value meaning t := by
  induction e with
  | const => rfl
  | symbol id name => exact h
  | unary id op a iha => rw [value, value, iha h]
  | binary id op a b iha ihb => rw [value, value, iha h.1, ihb h.2]

end Expr

/-! ## The order of evaluation -/

section Order

open ExplicitOde.Expr

variable {P : Nat → Prop}

theorem over_visit {e : Expr α} {p : Progress α} {below : Progress α → Progress α} (he : e.Over P)
    (hp : ∀ x ∈ p.listed.toList, x.Over P)
    (hbelow : ∀ q : Progress α, (∀ x ∈ q.listed.toList, x.Over P) →
      ∀ x ∈ (below q).listed.toList, x.Over P) :
    ∀ x ∈ (p.visit e below).listed.toList, x.Over P := by
  rw [Progress.visit]
  split
  · exact hp
  · intro x hx
    rw [Array.toList_push, List.mem_append, List.mem_singleton] at hx
    rcases hx with hx | rfl
    · exact hbelow ⟨p.entered.insert e.id, p.listed⟩ hp x hx
    · exact he

theorem over_postorder {e : Expr α} (he : e.Over P) : ∀ p : Progress α,
    (∀ x ∈ p.listed.toList, x.Over P) → ∀ x ∈ (e.postorder p).listed.toList, x.Over P := by
  induction e with
  | const | symbol => exact fun p hp => over_visit he hp fun q hq => hq
  | unary id op a iha => exact fun p hp => over_visit he hp (iha he)
  | binary id op a b iha ihb =>
      exact fun p hp => over_visit he hp fun q hq => ihb he.2 _ (iha he.1 q hq)

/-- What is listed for evaluation is over the symbols of the roots. -/
theorem over_evaluationOrder {roots : List (Expr α)} (h : ∀ e ∈ roots, e.Over P) :
    ∀ x ∈ evaluationOrder roots, x.Over P := by
  have hall : ∀ (es : List (Expr α)) (p : Progress α), (∀ e ∈ es, e.Over P) →
      (∀ x ∈ p.listed.toList, x.Over P) → ∀ x ∈ (postorderAll p es).listed.toList, x.Over P := by
    intro es
    induction es with
    | nil => exact fun p _ hp => hp
    | cons e es ih =>
        intro p hes hp
        exact ih _ (fun e' he' => hes e' (List.mem_cons_of_mem e he'))
          (over_postorder (hes e List.mem_cons_self) p hp)
  rw [evaluationOrder_eq]
  exact hall roots _ h (by simp)

end Order

/-! ## Symbols of given names -/

namespace Expr

/-- Symbols of given names, with identities from a number on. -/
def symbolsFrom (n : Nat) (names : List String) : List (Expr α) :=
  (names.zipIdx n).map fun (s, i) => symbol i s

theorem symbolsFrom_append (n : Nat) (names more : List String) :
    (symbolsFrom n (names ++ more) : List (Expr α)) =
      symbolsFrom n names ++ symbolsFrom (n + names.length) more := by
  rw [symbolsFrom, List.zipIdx_append, List.map_append]
  rfl

theorem length_symbolsFrom (n : Nat) (names : List String) :
    (symbolsFrom n names : List (Expr α)).length = names.length := by
  rw [symbolsFrom, List.length_map, List.length_zipIdx]

theorem id_symbolsFrom (n : Nat) (names : List String) :
    (symbolsFrom n names : List (Expr α)).map Expr.id = List.range' n names.length := by
  rw [symbolsFrom, List.map_map, ← List.zipIdx_map_snd n names]
  rfl

theorem symbolName?_symbolsFrom (n : Nat) (names : List String) :
    (symbolsFrom n names : List (Expr α)).map Expr.symbolName? = names.map some := by
  conv => rhs; rw [← List.zipIdx_map_fst n names, List.map_map]
  rw [symbolsFrom, List.map_map]
  rfl

theorem isSymbol_symbolsFrom (n : Nat) (names : List String) :
    ∀ e ∈ (symbolsFrom n names : List (Expr α)), e.isSymbol = true := by
  intro e he
  obtain ⟨_, _, rfl⟩ := List.mem_map.mp he
  rfl

/-- Making symbols takes the next identities. -/
theorem mapM_mkSymbol (names : List String) : ∀ n : Nat,
    (names.mapM mkSymbol : Build (List (Expr α))) n = (symbolsFrom n names, n + names.length) := by
  induction names with
  | nil => exact fun _ => rfl
  | cons s names ih =>
      intro n
      have hrest := congrArg (fun run => (symbol n s :: run.1, run.2)) (ih (n + 1))
      rw [List.mapM_cons, List.length_cons, ← Nat.add_assoc, Nat.add_right_comm]
      exact hrest

/-- What consists of symbols is over their identities. -/
theorem over_of_symbols {es : List (Expr α)} {P : Nat → Prop} (h : ∀ e ∈ es, e.isSymbol = true)
    (hP : ∀ i ∈ es.map Expr.id, P i) : ∀ e ∈ es, e.Over P := by
  intro e he
  have hsymbol := h e he
  have hid := hP e.id (List.mem_map_of_mem he)
  cases e with
  | symbol => exact hid
  | const | unary | binary => exact Bool.noConfusion hsymbol

end Expr

end ExplicitOde
