import ExplicitOde.Formula.Lower
import ExplicitOde.Proofs.Expr.Closure

/-!
# From formulas to expressions

The expression of a formula is built from the inside out, one step for every operation that is
written. What holds of numbers and names and is kept by every step holds of the whole: `Lowering`
lists the steps and `Lowering.yields` puts them together.

The expression is in a pool and over certain symbols if the expressions of the table are.
-/

namespace ExplicitOde

open ExplicitOde.Expr

variable {α : Type} [Scalar α] {table : SymbolTable α} {pool : Pool α}

namespace Formula

/-- No function takes other than one or two arguments. -/
theorem lower_call_refused {function : String} {args : List (Formula α)}
    (htwo : ∀ base exponent, args ≠ [base, exponent]) (hone : ∀ arg, args ≠ [arg]) :
    (call function args).lower table = throw (.unknownFunction function args.length) := by
  rw [lower.eq_def]
  dsimp only
  split
  · exact absurd rfl (htwo _ _)
  · exact absurd rfl (hone _)
  · rfl

/-- What is said of formulas and their expressions holds of numbers and names, once the pool is
`pool` or larger, and is kept by every operation. -/
structure Lowering (table : SymbolTable α) (pool : Pool α)
    (post : Pool α → Formula α → Expr α → Prop) : Prop where
  grow : ∀ {p p' : Pool α} {f : Formula α} {e : Expr α}, p ≤ p' → post p f e → post p' f e
  number : ∀ (p : Pool α) (v : α), p.Ensures (mkConst v) fun after => post after (.number v)
  name : ∀ {p : Pool α} {s : String} {e : Expr α}, pool ≤ p → table.lookup s = some e →
    post p (.name s) e
  pi : ∀ p : Pool α, table.lookup "pi" = none →
    p.Ensures (mkConst Scalar.pi) fun after => post after (.name "pi")
  neg : ∀ {p : Pool α} {f : Formula α} {a : Expr α}, post p f a →
    p.Ensures (mkNeg a) fun after => post after (.neg f)
  binary : ∀ {p : Pool α} {f g : Formula α} {a b : Expr α} (op : BinaryOp), post p f a →
    post p g b → p.Ensures (mkBinary op a b) fun after => post after (.binary op f g)
  power : ∀ {p : Pool α} {f g : Formula α} {a b : Expr α}, post p f a → post p g b →
    p.Ensures (mkBinary .pow a b) fun after => post after (.call "pow" [f, g])
  call : ∀ {p : Pool α} {name : String} {op : UnaryOp} {f : Formula α} {a : Expr α},
    UnaryOp.ofName? name = some op → post p f a →
    p.Ensures (mkUnary op a) fun after => post after (.call name [f])

/-- **What every step keeps holds of the expression of a formula, if there is one.** -/
theorem Lowering.yields {post : Pool α → Formula α → Expr α → Prop}
    (h : Lowering table pool post) (f : Formula α) {p : Pool α} (hle : pool ≤ p) :
    p.Yields (f.lower table) fun after => post after f := by
  -- along the recursion of `lower`, for any larger pool, as the right operand is built in one
  induction f using Formula.lower.induct table generalizing p with
  | case1 v =>
      rw [lower]
      exact Pool.Yields.lift (h.number p v)
  | case2 s e hs =>
      rw [lower, hs]
      exact Pool.Yields.pure (h.name hle hs)
  | case3 hs =>
      rw [lower, hs]
      exact Pool.Yields.lift (h.pi p hs)
  | case4 s hs hne =>
      rw [lower, hs]
      dsimp only
      rw [if_neg hne]
      exact Pool.Yields.fail
  | case5 inner ih =>
      rw [lower]
      exact (ih hle).bind fun _ a _ ha => Pool.Yields.lift (h.neg ha)
  | case6 op lhs rhs ihl ihr =>
      rw [lower]
      refine (ihl hle).bind fun p₁ a hle₁ ha => ?_
      refine (ihr (Pool.le_trans hle hle₁)).bind fun p₂ b hle₂ hb => ?_
      exact Pool.Yields.lift (h.binary op (h.grow hle₂ ha) hb)
  | case7 base exponent ihb ihe =>
      rw [lower, if_pos rfl]
      refine (ihb hle).bind fun p₁ a hle₁ ha => ?_
      refine (ihe (Pool.le_trans hle hle₁)).bind fun p₂ b hle₂ hb => ?_
      exact Pool.Yields.lift (h.power (h.grow hle₂ ha) hb)
  | case8 f base exponent hne =>
      rw [lower, if_neg hne]
      exact Pool.Yields.fail
  | case9 f arg op hop ih =>
      rw [lower, hop]
      exact (ih hle).bind fun _ a _ ha => Pool.Yields.lift (h.call hop ha)
  | case10 f arg hop =>
      rw [lower, hop]
      exact Pool.Yields.fail
  | case11 f args htwo hone =>
      rw [lower_call_refused htwo hone]
      exact Pool.Yields.fail

/-- The expression of a formula is over the symbols that the table is over. -/
theorem lowering_over {P : Nat → Prop}
    (htable : ∀ s e, table.lookup s = some e → e ∈ pool ∧ e.Over P) :
    Lowering table pool fun p _ e => e ∈ p ∧ e.Over P where
  grow hle h := ⟨Pool.mem_of_le hle h.1, h.2⟩
  number _ v := ((mkConst_mem v).imp fun _ _ _ h => h.1).and (over_mkConst P v _)
  name hle hs := ⟨Pool.mem_of_le hle (htable _ _ hs).1, (htable _ _ hs).2⟩
  pi _ _ := ((mkConst_mem _).imp fun _ _ _ h => h.1).and (over_mkConst P _ _)
  neg h := (mkUnary_mem .neg h.1).and (over_mkNeg h.2 _)
  binary op ha hb := (mkBinary_mem op ha.1 hb.1).and (over_mkBinary op ha.2 hb.2 _)
  power ha hb := (mkBinary_mem .pow ha.1 hb.1).and (over_mkBinary .pow ha.2 hb.2 _)
  call _ ha := (mkUnary_mem _ ha.1).and (over_mkUnary _ ha.2 _)

end Formula

end ExplicitOde
