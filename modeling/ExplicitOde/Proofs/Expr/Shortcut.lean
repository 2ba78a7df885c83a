import ExplicitOde.Proofs.Expr.Pool
import Mathlib.Tactic.SplitIfs

/-!
# What building makes

An operation makes a node of its own, or none: then it amounts to a folded constant, to one of the
operands or to the negative of one of them. None of this depends on what the numbers are. Whichever
it is, the result is in the pool that the pool of the operands has grown to.
-/

namespace ExplicitOde

namespace Expr

variable {α : Type} [Scalar α] {pool : Pool α}

/-! ## Results that need no node -/

omit [Scalar α] in
theorem constant?_eq_some {e : Expr α} {v : α} (h : e.constant? = some v) :
    ∃ id, e = const id v := by
  cases e with
  | const id w =>
      simp only [constant?, Option.some.injEq] at h
      exact ⟨id, h ▸ rfl⟩
  | symbol => simp [constant?] at h
  | unary => simp [constant?] at h
  | binary => simp [constant?] at h

/-- A result that needs no node is made of one of two expressions, or of neither. -/
def ShortcutAmong (a b : Expr α) : Shortcut α → Prop
  | .constant _ => True
  | .existing e => e = a ∨ e = b
  | .negated e => e = a ∨ e = b

/-- A function needs no node if it is folded, or a negation of a negation. -/
theorem unaryShortcut?_cases {op : UnaryOp} {a : Expr α} {s : Shortcut α}
    (h : unaryShortcut? op a = some s) :
    (∃ id v w, a = const id v ∧ Scalar.foldUnary? op v = some w ∧ s = .constant w) ∨
      (∃ id inner, op = .neg ∧ a = unary id .neg inner ∧ s = .existing inner) := by
  unfold unaryShortcut? at h
  split at h
  · rename_i w hw
    obtain ⟨v, hv, hfold⟩ := Option.bind_eq_some_iff.mp hw
    obtain ⟨id, rfl⟩ := constant?_eq_some hv
    injection h with h
    exact Or.inl ⟨id, v, w, rfl, hfold, h.symm⟩
  · split at h
    · injection h with h
      exact Or.inr ⟨_, _, rfl, rfl, h.symm⟩
    · exact absurd h (by simp)

theorem neutralShortcut?_among {op : BinaryOp} {a b : Expr α} {s : Shortcut α}
    (h : neutralShortcut? op a b = some s) : ShortcutAmong a b s := by
  cases op <;> simp only [neutralShortcut?] at h <;> split_ifs at h <;> cases h
  all_goals simp [ShortcutAmong]

/-- A folded operation on two constants, or a rule for neutral operands. -/
theorem binaryShortcut?_cases {op : BinaryOp} {a b : Expr α} {s : Shortcut α}
    (h : binaryShortcut? op a b = some s) :
    (∃ i j u v w, a = const i u ∧ b = const j v ∧ Scalar.foldBinary? op u v = some w ∧
        s = .constant w) ∨ neutralShortcut? op a b = some s := by
  rw [binaryShortcut?] at h
  split at h
  · rename_i w hw
    obtain ⟨⟨u, v⟩, huv, hfold⟩ := Option.bind_eq_some_iff.mp hw
    rw [constants?] at huv
    split at huv
    · rename_i u' v' hu hv
      injection huv with huv
      obtain ⟨rfl, rfl⟩ := Prod.mk.inj huv
      obtain ⟨i, rfl⟩ := constant?_eq_some hu
      obtain ⟨j, rfl⟩ := constant?_eq_some hv
      injection h with h
      exact Or.inl ⟨i, j, u', v', w, rfl, rfl, hfold, h.symm⟩
    · exact absurd huv (by simp)
  · exact Or.inr h

theorem binaryShortcut?_among {op : BinaryOp} {a b : Expr α} {s : Shortcut α}
    (h : binaryShortcut? op a b = some s) : ShortcutAmong a b s := by
  rcases binaryShortcut?_cases h with ⟨_, _, _, _, _, _, _, _, rfl⟩ | h
  · trivial
  · exact neutralShortcut?_among h

/-! ## Results in a pool -/

omit [Scalar α] in
theorem mkConst_mem (v : α) :
    pool.Ensures (mkConst v) fun after e => e ∈ after ∧ ∃ id, e = const id v :=
  ⟨pool.grow (const pool.next v) rfl (by simp [operands]), Pool.le_grow _ _, rfl,
    Pool.mem_grow _ _, _, rfl⟩

omit [Scalar α] in
/-- A new node for a function. -/
theorem newUnary_mem (op : UnaryOp) {a : Expr α} (ha : a ∈ pool) :
    pool.Ensures (do return unary (← freshId) op a) fun after e =>
      e ∈ after ∧ ∃ id, e = unary id op a := by
  have hops : ∀ x ∈ (unary pool.next op a).operands, x ∈ pool := by
    intro x hx
    rw [operands, List.mem_singleton] at hx
    exact hx ▸ ha
  exact ⟨pool.grow (unary pool.next op a) rfl hops, Pool.le_grow _ _, rfl,
    Pool.mem_grow _ _, _, rfl⟩

omit [Scalar α] in
/-- A new node for an operation on two expressions. -/
theorem newBinary_mem (op : BinaryOp) {a b : Expr α} (ha : a ∈ pool) (hb : b ∈ pool) :
    pool.Ensures (do return binary (← freshId) op a b) fun after e =>
      e ∈ after ∧ ∃ id, e = binary id op a b := by
  have hops : ∀ x ∈ (binary pool.next op a b).operands, x ∈ pool := by
    intro x hx
    simp only [operands, List.mem_cons, List.not_mem_nil, or_false] at hx
    rcases hx with rfl | rfl
    · exact ha
    · exact hb
  exact ⟨pool.grow (binary pool.next op a b) rfl hops, Pool.le_grow _ _, rfl, Pool.mem_grow _ _, _,
    rfl⟩

theorem mkUnary_mem (op : UnaryOp) {a : Expr α} (ha : a ∈ pool) :
    pool.Ensures (mkUnary op a) fun after e => e ∈ after := by
  rw [mkUnary]
  cases hs : unaryShortcut? op a with
  | none => exact (newUnary_mem op ha).imp fun _ _ _ h => h.1
  | some s =>
      rcases unaryShortcut?_cases hs with ⟨_, _, v, rfl, _, rfl⟩ | ⟨_, inner, rfl, rfl, rfl⟩
      · exact (mkConst_mem v).imp fun _ _ _ h => h.1
      · exact Pool.Ensures.pure (pool.operand_mem _ ha inner (by simp [operands]))

theorem mkBinary_mem (op : BinaryOp) {a b : Expr α} (ha : a ∈ pool) (hb : b ∈ pool) :
    pool.Ensures (mkBinary op a b) fun after e => e ∈ after := by
  have hold : ∀ e, e = a ∨ e = b → e ∈ pool := by
    rintro e (rfl | rfl)
    · exact ha
    · exact hb
  rw [mkBinary]
  cases hs : binaryShortcut? op a b with
  | none => exact (newBinary_mem op ha hb).imp fun _ _ _ h => h.1
  | some s =>
      have hamong := binaryShortcut?_among hs
      cases s with
      | constant v => exact (mkConst_mem v).imp fun _ _ _ h => h.1
      | existing e => exact Pool.Ensures.pure (hold e hamong)
      | negated e => exact mkUnary_mem .neg (hold e hamong)

end Expr

end ExplicitOde
