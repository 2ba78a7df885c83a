import ExplicitOde.Proofs.Declaration.Model
import ExplicitOde.Proofs.Expr.Settled
import ExplicitOde.Proofs.Formula.Display
import ExplicitOde.Proofs.Function.Make
import ExplicitOde.Scalar.Double

/-!
# Reading expression texts back

The formula that the text of an expression spells is built into the tree that was written.

Every operation in a settled expression has a node of its own, and it gets one again: no shortcut
appears, as the operands are the same trees. Only the difference of a node and itself needs a look
at identities. What is built while the text is read gets new identities, so that two operands are
one node only if both are the same symbol.
-/

namespace ExplicitOde

open ExplicitOde.Expr
open Grammar

variable {α : Type} [Scalar α] {first n mid next : Nat} {a a' b b' e e' : Expr α}

/-! ## Building again -/

/-- The tree `e'` is that of `e`, built while identities from `n` to `next` were handed out. It is a
symbol that was there before `first`, or it has one of these identities. -/
structure Rebuilt (first n next : Nat) (e e' : Expr α) : Prop where
  tree : SameTree e e'
  node : e'.isSymbol = true ∧ e'.id < first ∨ n ≤ e'.id ∧ e'.id < next

/-- Operands that are the same when they were built again were the same before. -/
theorem Rebuilt.isSame (ha : Rebuilt first n mid a a') (hb : Rebuilt first mid next b b')
    (hfirst : first ≤ n) (hmid : n ≤ mid) (h : a'.isSame b' = true) : a.isSame b = true := by
  have hnode := ha.node
  have hnode' := hb.node
  unfold Expr.isSame at h ⊢
  rw [Bool.or_eq_true] at h ⊢
  rcases h with h | h
  · -- of two different nodes one at least is new, and no identity is handed out twice
    have hid : a'.id = b'.id := beq_iff_eq.mp h
    have hsymbols : a'.isSymbol = true ∧ b'.isSymbol = true := by
      rcases hnode with ⟨hs, _⟩ | _ <;> rcases hnode' with ⟨hs', _⟩ | _
      · exact ⟨hs, hs'⟩
      all_goals omega
    left
    cases ha.tree with
    | symbol =>
        cases hb.tree with
        | symbol => exact h
        | const | unary | binary => exact Bool.noConfusion hsymbols.2
    | const | unary | binary => exact Bool.noConfusion hsymbols.1
  · right
    cases ha.tree with
    | const => cases hb.tree <;> exact h
    | symbol | unary | binary => exact Bool.noConfusion h

/-- An operation without a shortcut gets the next identity. -/
theorem mkUnary_run {op : UnaryOp} (h : unaryShortcut? op a = none) (n : Nat) :
    mkUnary op a n = (.unary n op a, n + 1) := by
  rw [mkUnary, h]
  rfl

theorem mkBinary_run {op : BinaryOp} (h : binaryShortcut? op a b = none) (n : Nat) :
    mkBinary op a b n = (.binary n op a b, n + 1) := by
  rw [mkBinary, h]
  rfl

/-- A function of an expression that was built again is built again. -/
theorem Rebuilt.unary {op : UnaryOp} (ha : Rebuilt first n mid a a') (hmid : n ≤ mid)
    (hnone : unaryShortcut? op a = none) (id : Nat) :
    ∃ e' next, mkUnary op a' mid = (e', next) ∧ n ≤ next ∧
      Rebuilt first n next (.unary id op a) e' := by
  refine ⟨_, _, mkUnary_run (ha.tree.unaryShortcut?_eq_none hnone) mid, by omega, ?_⟩
  exact ⟨.unary ha.tree, Or.inr ⟨hmid, Nat.lt_succ_self mid⟩⟩

/-- An operation on two expressions that were built again, the right one after the left, is built
again. -/
theorem Rebuilt.binary {op : BinaryOp} (ha : Rebuilt first n mid a a')
    (hb : Rebuilt first mid next b b') (hfirst : first ≤ n) (hmid : n ≤ mid) (hnext : mid ≤ next)
    (hnone : binaryShortcut? op a b = none) (id : Nat) :
    ∃ e' after, mkBinary op a' b' next = (e', after) ∧ n ≤ after ∧
      Rebuilt first n after (.binary id op a b) e' := by
  have hnone' := ha.tree.binaryShortcut?_eq_none hb.tree (ha.isSame hb hfirst hmid) hnone
  refine ⟨_, _, mkBinary_run hnone' next, by omega, ?_⟩
  exact ⟨.binary ha.tree hb.tree, Or.inr ⟨Nat.le_trans hmid hnext, Nat.lt_succ_self next⟩⟩

/-! ## Reading again -/

variable [Written α] {table : SymbolTable α}

/-- The formula is lowered to the tree of an expression, whatever identity is next from `first`
on. -/
def Restores (first : Nat) (table : SymbolTable α) (f : Formula α) (e : Expr α) : Prop :=
  ∀ n, first ≤ n → ∃ e' next, f.lower table n = (.ok e', next) ∧ n ≤ next ∧
    Rebuilt first n next e e'

omit [Written α] in
/-- A call of a function by its name. -/
theorem lower_call {op : UnaryOp} (h : op ≠ .neg) (f : Formula α) :
    (Formula.call op.name [f]).lower table =
      f.lower table >>= fun a => liftM (Expr.mkUnary op a) := by
  have hname : UnaryOp.ofName? op.name = some op := by
    cases op <;> first | exact absurd rfl h | decide
  rw [Formula.lower, hname]

omit [Written α] in
theorem Restores.unary {op : UnaryOp} {f g : Formula α} (ha : Restores first table f a)
    (hnone : unaryShortcut? op a = none) (id : Nat)
    (hg : g.lower table = f.lower table >>= fun a => liftM (Expr.mkUnary op a)) :
    Restores first table g (.unary id op a) := by
  intro n hfirst
  obtain ⟨a', mid, hrun, hmid, hrebuilt⟩ := ha n hfirst
  obtain ⟨e', next, hmake, hnext, he'⟩ := hrebuilt.unary hmid hnone id
  refine ⟨e', next, ?_, hnext, he'⟩
  rw [hg, bind_run hrun]
  exact congrArg (fun run => (Except.ok run.1, run.2)) hmake

omit [Written α] in
theorem Restores.binary {op : BinaryOp} {f g h : Formula α} (ha : Restores first table f a)
    (hb : Restores first table g b) (hnone : binaryShortcut? op a b = none) (id : Nat)
    (hh : h.lower table = f.lower table >>= fun a => g.lower table >>= fun b =>
      liftM (Expr.mkBinary op a b)) : Restores first table h (.binary id op a b) := by
  intro n hfirst
  obtain ⟨a', mid, hrun, hmid, hrebuilt⟩ := ha n hfirst
  obtain ⟨b', next, hrun', hnext, hrebuilt'⟩ := hb mid (Nat.le_trans hfirst hmid)
  obtain ⟨e', after, hmake, hafter, he'⟩ := hrebuilt.binary hrebuilt' hfirst hmid hnext hnone id
  refine ⟨e', after, ?_, hafter, he'⟩
  rw [hh, bind_run hrun, bind_run hrun']
  exact congrArg (fun run => (Except.ok run.1, run.2)) hmake

/-- A constant is built again, one with a sign as the negation of a number. -/
theorem restores_constant {v : α} (h : ReadsBack v) (id : Nat) :
    Restores first table (constantDerivation v).meaning (.const id v) := by
  intro n _
  obtain ⟨numeral, ⟨_, _, hd⟩ | ⟨_, hvalue, hd⟩⟩ := h.derivation_cases
  · rw [hd]
    exact ⟨.const n v, n + 1, rfl, Nat.le_succ n, .const,
      Or.inr ⟨Nat.le_refl n, Nat.lt_succ_self n⟩⟩
  · rw [hd]
    have hfold : mkNeg (.const n (Scalar.ofDecimal numeral.value)) (n + 1) =
        (.const (n + 1) v, n + 2) := by
      simp only [mkNeg, mkUnary, unaryShortcut?, constant?, Option.bind_some, hvalue]
      rfl
    refine ⟨.const (n + 1) v, n + 2, ?_, by omega, .const,
      Or.inr ⟨Nat.le_succ n, Nat.lt_succ_self (n + 1)⟩⟩
    exact congrArg (fun run => (Except.ok run.1, run.2)) hfold

/-- **The formula of the text of an expression restores its tree**, if the table has its symbols. -/
theorem restores_derivation (e : Expr α) (hsettled : e.Settled)
    (hconstants : ∀ id v, e.Reaches (.const id v) → ReadsBack v)
    (hsymbols : ∀ id s, e.Reaches (.symbol id s) →
      id < first ∧ table.lookup s = some (.symbol id s)) :
    Restores first table e.derivation.meaning e := by
  induction e with
  | const id v => exact restores_constant (hconstants id v (.self _)) id
  | symbol id s =>
      obtain ⟨hid, hlookup⟩ := hsymbols id s (.self _)
      intro n _
      refine ⟨.symbol id s, n, ?_, Nat.le_refl n, .symbol, Or.inl ⟨rfl, hid⟩⟩
      rw [Expr.derivation, Derivation.meaning, Derivation.meaning, Derivation.meaning,
        Formula.lower, hlookup]
      rfl
  | unary id op a iha =>
      have hmem : a ∈ (Expr.unary id op a).operands := List.mem_singleton_self a
      have ha := iha hsettled.2 (fun i v h => hconstants i v (.through hmem h))
        fun i s h => hsymbols i s (.through hmem h)
      by_cases hneg : op = .neg
      · subst hneg
        exact ha.unary hsettled.1 id rfl
      · rw [(Expr.unary_text hneg id a).2]
        exact ha.unary hsettled.1 id (lower_call hneg _)
  | binary id op a b iha ihb =>
      have ha := iha hsettled.2.1 (fun i v h => hconstants i v (.through List.mem_cons_self h))
        fun i s h => hsymbols i s (.through List.mem_cons_self h)
      have hmem : b ∈ (Expr.binary id op a b).operands := List.mem_cons_of_mem a List.mem_cons_self
      have hb := ihb hsettled.2.2 (fun i v h => hconstants i v (.through hmem h))
        fun i s h => hsymbols i s (.through hmem h)
      cases op <;> exact ha.binary hb hsettled.1 id rfl

/-! ## The table of the symbols of an expression -/

omit [Scalar α] [Written α] in
/-- A symbol is found by its name, if no other symbol of the expression has it. -/
theorem lookup_freeSymbols {pool : Pool α} {e : Expr α} (he : e ∈ pool)
    (hnames : ∀ i j s, e.Reaches (.symbol i s) → e.Reaches (.symbol j s) → i = j)
    {id : Nat} {s : String} (h : e.Reaches (.symbol id s)) :
    (SymbolTable.ofExprs (freeSymbols [e])).lookup s = some (.symbol id s) := by
  have hroots : ∀ x ∈ [e], x ∈ pool := List.forall_mem_singleton.mpr he
  have hmem : ∀ x, x ∈ freeSymbols [e] ↔ e.Reaches x ∧ x.isSymbol = true := by
    simpa using mem_freeSymbols hroots
  have hlisted : Expr.symbol id s ∈ freeSymbols [e] := (hmem _).mpr ⟨h, rfl⟩
  cases hlookup : (SymbolTable.ofExprs (freeSymbols [e])).lookup s with
  | none =>
      have hentry : (s, Expr.symbol id s) ∈ SymbolTable.ofExprs (freeSymbols [e]) :=
        SymbolTable.mem_ofExprs.mpr ⟨hlisted, rfl⟩
      exact absurd (List.lookup_eq_none_iff.mp hlookup _ hentry) (by simp)
  | some x =>
      obtain ⟨hx, hname⟩ := SymbolTable.mem_ofExprs.mp (SymbolTable.mem_of_lookup hlookup)
      cases x with
      | symbol j s' =>
          obtain rfl : s' = s := Option.some.inj hname
          rw [hnames j id s' ((hmem _).mp hx).1 h]
      | const | unary | binary => exact nomatch hname

/-- **Reading the text of an expression gives its tree.** The expression is any that a run of the
constructors has made; its constants are finite, and its symbols are named by identifiers, each by
its own. Of the written form of numbers it is assumed that a finite one is a plain numeral, with a
minus sign or without, and reads back. -/
theorem parseExpr_display {finite : α → Prop} (hdisplay : ∀ v, finite v → ReadsBack v)
    {next : Nat} {made : List (Expr α)} (hmade : Constructed next made) {e : Expr α} (he : e ∈ made)
    (hfinite : ∀ id v, e.Reaches (.const id v) → finite v)
    (hidentifiers : ∀ id s, e.Reaches (.symbol id s) → isIdentifier s = true)
    (hnames : ∀ i j s, e.Reaches (.symbol i s) → e.Reaches (.symbol j s) → i = j) :
    ∃ e', (parseExpr (SymbolTable.ofExprs (freeSymbols [e])) e.display next).1 = .ok e' ∧
      SameTree e e' := by
  have hconstants : ∀ id v, e.Reaches (.const id v) → ReadsBack v :=
    fun id v h => hdisplay v (hfinite id v h)
  obtain ⟨pool, hpool, hmem⟩ := hmade.exists_pool
  have hsymbols : ∀ id s, e.Reaches (.symbol id s) → id < next ∧
      (SymbolTable.ofExprs (freeSymbols [e])).lookup s = some (.symbol id s) := by
    intro id s h
    refine ⟨?_, lookup_freeSymbols (hmem e he) hnames h⟩
    exact hpool ▸ pool.id_lt _ (Pool.mem_of_reaches (hmem e he) h)
  obtain ⟨e', after, hrun, _, he'⟩ := restores_derivation e (hmade.settled e he) hconstants hsymbols
    next (Nat.le_refl next)
  refine ⟨e', ?_, he'.tree⟩
  rw [parseExpr, parseFormula_display e hconstants hidentifiers]
  exact congrArg Prod.fst hrun

/-- The difference of a variable and a negative number, in double precision. -/
def negativeSubtracted : Expr Float := .binary 2 .sub (.symbol 0 "x") (.const 1 (-2.0))

/-- Reading `(x--2)` back. -/
theorem parseExpr_display_negativeSubtracted : negativeSubtracted.display = "(x--2)" ∧
    ∃ e', (parseExpr (SymbolTable.ofExprs (freeSymbols [negativeSubtracted]))
        negativeSubtracted.display 3).1 = .ok e' ∧ SameTree negativeSubtracted e' := by
  have hdisplay : Written.display (-2.0 : Float) = "-2" := by decide +kernel
  -- the constant is written with a sign and read back as the negative of two
  have hreads : ∀ v : Float, v = -2.0 → ReadsBack v := by
    rintro v rfl
    have hdigits : C.Digits ['2'] := ⟨List.cons_ne_nil _ _, List.forall_mem_singleton.mpr rfl⟩
    have hvalue : Scalar.ofDecimal ⟨2, 0⟩ = (2.0 : Float) := by rfl
    refine ⟨⟨['2'], [], hdigits, by simp⟩, Or.inr ⟨?_, ?_⟩⟩
    · rw [hdisplay]
      rfl
    · exact (congrArg (Scalar.foldUnary? UnaryOp.neg) hvalue).trans rfl
  have hmade : Constructed 3 [negativeSubtracted, .const 1 (-2.0), .symbol 0 "x"] := by
    have hnone : binaryShortcut? .sub (.symbol 0 "x") (.const 1 (-2.0) : Expr Float) = none := by
      rfl
    have hoperands : Constructed 2 [Expr.const 1 (-2.0), .symbol 0 "x"] :=
      .const (-2.0 : Float) (.symbol "x" (.start 0))
    have h := hoperands.binary .sub (List.mem_cons_of_mem _ List.mem_cons_self) List.mem_cons_self
    rwa [mkBinary_run hnone] at h
  have hreaches : ∀ x, negativeSubtracted.Reaches x →
      x = negativeSubtracted ∨ x = .symbol 0 "x" ∨ x = .const 1 (-2.0) := by
    rintro x (_ | ⟨hop, h⟩)
    · exact Or.inl rfl
    · right
      simp only [negativeSubtracted, operands, List.mem_cons, List.not_mem_nil, or_false] at hop
      rcases hop with rfl | rfl
      · cases h with
        | self => exact Or.inl rfl
        | through hop => exact absurd hop List.not_mem_nil
      · cases h with
        | self => exact Or.inr rfl
        | through hop => exact absurd hop List.not_mem_nil
  refine ⟨by rw [negativeSubtracted, Expr.display, Expr.display, Expr.display, hdisplay]; rfl, ?_⟩
  refine parseExpr_display hreads hmade List.mem_cons_self ?_ ?_ ?_
  · intro id v h
    rcases hreaches _ h with h | h | h
    · cases h
    · cases h
    · exact (Expr.const.inj h).2
  · intro id s h
    rcases hreaches _ h with h | h | h
    · cases h
    · rw [(Expr.symbol.inj h).2]
      decide
    · cases h
  · intro i j s hi hj
    have hid : ∀ i, negativeSubtracted.Reaches (.symbol i s) → i = 0 := by
      intro i h
      rcases hreaches _ h with h | h | h
      · cases h
      · exact (Expr.symbol.inj h).1
      · cases h
    rw [hid i hi, hid j hj]

end ExplicitOde
